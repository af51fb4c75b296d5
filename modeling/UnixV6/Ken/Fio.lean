import Mathlib
import UnixV6.H.Inode
import UnixV6.Lib.RefCount

/-!
# The file table (`ken/fio.c`, with `ken/sys2.c`, `ken/sys3.c`, `ken/pipe.c`, `ken/slp.c`)

The open file table, the descriptors of every process, and the system calls that change them:
`open`, `creat`, `pipe`, `dup`, `close`, `fork` and `exit`. A process inside the kernel runs until
it sleeps, so each call is cut where it can sleep and `FilePc` says at which of these places a
process stands. `FileSys.step` lets any process go on.

The inodes are shared with the rest of the kernel: `FileAct.inodes` replaces the in-core inode
table by any other, for what other calls do to it. Left out, because nothing here reads it: path
names, permissions beyond the outcome of the check, and the data that goes through a file.
-/

open Function

namespace UnixV6

/-- A descriptor. -/
abbrev Fd : Type := Fin NOFILE

/-- An index into the file table. -/
abbrev FilePtr : Type := Fin NFILE

/-- The errors of the calls modelled here. -/
inductive Errno
  | EBADF | EMFILE | ENFILE | EAGAIN
  /-- `u_error` as the lookup, the permission check, the allocation of an inode or the open entry
  of a device has set it. -/
  | other (code : ℕ)
  deriving DecidableEq, Repr

/-- `f_flag`. -/
structure FFlag where
  fread : Bool := false
  fwrite : Bool := false
  fpipe : Bool := false
  deriving DecidableEq, Repr

/-- `struct file`. -/
structure File where
  f_flag : FFlag := {}
  /-- Reference count, a signed `char`. -/
  f_count : BitVec 8 := 0
  f_inode : InodePtr := 0
  /-- The two words of the read/write character pointer. -/
  f_offset : BitVec 16 × BitVec 16 := (0, 0)
  deriving DecidableEq, Repr

/-- What a process does after `closef`: return from `close`, or go on with the loop of `exit` at a
descriptor. -/
inductive AfterClosef
  | ret
  | exit (w : ℕ)
  deriving DecidableEq, Repr

/-- Where a process stands. -/
inductive FilePc
  /-- `p_stat == NULL`: no process in this slot. -/
  | null
  /-- Outside the kernel. -/
  | user
  /-- In `namei`, `maknode` or `itrunc`, before the `falloc` of `open1`. -/
  | namei (mode : FFlag)
  /-- In the open entry of the device, called by `open1`. -/
  | openi (i : Fd) (fp : FilePtr)
  /-- In the `ialloc` of `pipe`. -/
  | ialloc
  /-- In the `iput` with which `open1` and `pipe` give up. -/
  | iput (ip : InodePtr)
  /-- In the close entry of the device, called by `closei`. -/
  | d_close (fp : FilePtr) (k : AfterClosef)
  /-- In the `iput` of `closei`. -/
  | closeiIput (fp : FilePtr) (k : AfterClosef)
  /-- In the loop of `exit`, at the descriptor `w`. -/
  | exit (w : ℕ)
  /-- `SZOMB`: waiting for the parent. -/
  | szomb
  deriving DecidableEq, Repr

/-- The file table and what refers to it. -/
structure FileSys where
  file : FilePtr → File
  inode : InodePtr → FInode
  u_ofile : Fin NPROC → Fd → Option FilePtr
  u_error : Fin NPROC → Option Errno
  pc : Fin NPROC → FilePc

namespace FileSys

/-! ## Updates -/

/-- `u.u_ofile[i] = v`. -/
def setFd (s : FileSys) (p : Fin NPROC) (i : Fd) (v : Option FilePtr) : FileSys :=
  { s with u_ofile := update s.u_ofile p (update (s.u_ofile p) i v) }

/-- `*fp = f`. -/
def setFile (s : FileSys) (fp : FilePtr) (f : File) : FileSys :=
  { s with file := update s.file fp f }

/-- `fp->f_count += n`. -/
def addCount (s : FileSys) (fp : FilePtr) (n : BitVec 8) : FileSys :=
  s.setFile fp { s.file fp with f_count := (s.file fp).f_count + n }

def goto (s : FileSys) (p : Fin NPROC) (k : FilePc) : FileSys :=
  { s with pc := update s.pc p k }

/-- `u.u_error = e`. -/
def setError (s : FileSys) (p : Fin NPROC) (e : Option Errno) : FileSys :=
  { s with u_error := update s.u_error p e }

def setMode (s : FileSys) (ip : InodePtr) (m : IMode) : FileSys :=
  { s with inode := update s.inode ip { s.inode ip with i_mode := m } }

/-- `ip->i_count += n`. -/
def addInodeCount (s : FileSys) (ip : InodePtr) (n : BitVec 8) : FileSys :=
  { s with inode := update s.inode ip { s.inode ip with i_count := (s.inode ip).i_count + n } }

/-! ## `fio.c` -/

/-- Convert a user supplied file descriptor into a pointer to a file structure. -/
def getf (s : FileSys) (p : Fin NPROC) (f : ℤ) : Except Errno (Fd × FilePtr) :=
  if h : 0 ≤ f ∧ f < NOFILE then
    let rf : Fd := ⟨f.toNat, by omega⟩
    match s.u_ofile p rf with
    | some fp => .ok (rf, fp)
    | none => .error .EBADF
  else
    .error .EBADF

/-- Allocate a user file descriptor. -/
def ufalloc (s : FileSys) (p : Fin NPROC) : Except Errno Fd :=
  match (List.finRange NOFILE).find? fun i => (s.u_ofile p i).isNone with
  | some i => .ok i
  | none => .error .EMFILE

/-- Allocate a user file descriptor and a file structure, and initialize the descriptor to point at
the file structure. -/
def falloc (s : FileSys) (p : Fin NPROC) : Except Errno (Fd × FilePtr × FileSys) :=
  match s.ufalloc p with
  | .error e => .error e
  | .ok i =>
    match (List.finRange NFILE).find? fun fp => (s.file fp).f_count == 0 with
    | some fp =>
      let f := s.file fp
      let f := { f with f_count := f.f_count + 1, f_offset := (0, 0) }
      .ok (i, fp, (s.setFd p i (some fp)).setFile fp f)
    | none => .error .ENFILE

/-- Where the code goes after `closef`. -/
def AfterClosef.pc : AfterClosef → FilePc
  | .ret => .user
  | .exit w => .exit w

/-- The end of `closef`. -/
def closefDone (s : FileSys) (p : Fin NPROC) (fp : FilePtr) (k : AfterClosef) : FileSys :=
  (s.addCount fp (-1)).goto p (AfterClosef.pc k)

/-- Decrement reference count on an inode due to the removal of a referencing file structure. On
the last `closei`, switch out to the close entry point of the special device handler; until that
returns or the `iput` after it does, the process may sleep. -/
def closei (s : FileSys) (p : Fin NPROC) (fp : FilePtr) (k : AfterClosef) : FileSys :=
  let rip := s.inode (s.file fp).f_inode
  if rip.i_count.toInt ≤ 1 ∧ (rip.i_mode.fmt = .chr ∨ rip.i_mode.fmt = .blk) then
    s.goto p (.d_close fp k)
  else
    s.goto p (.closeiIput fp k)

/-- Internal form of close. Decrement reference count on file structure and call `closei` on last
`closef`. -/
def closef (s : FileSys) (p : Fin NPROC) (fp : FilePtr) (k : AfterClosef) : FileSys :=
  let ip := (s.file fp).f_inode
  let s := if (s.file fp).f_flag.fpipe then
      s.setMode ip { (s.inode ip).i_mode with iread := false, iwrite := false }
    else s
  if (s.file fp).f_count.toInt ≤ 1 then s.closei p fp k else s.closefDone p fp k

/-! ## The system calls -/

/-- The end of a call, with what it leaves in `u_error`. -/
def ret (s : FileSys) (p : Fin NPROC) (e : Option Errno) : FileSys :=
  (s.setError p e).goto p .user

/-- `open1` after its checks: allocate an open file structure and call the open entry of the
device. -/
def open1 (s : FileSys) (p : Fin NPROC) (ip : InodePtr) (mode : FFlag) : FileSys :=
  match s.falloc p with
  | .error e => (s.setError p (some e)).goto p (.iput ip)
  | .ok (i, fp, s) =>
    (s.setFile fp { s.file fp with
      f_flag := { fread := mode.fread, fwrite := mode.fwrite }, f_inode := ip }).goto p (.openi i fp)

/-- `open1` after the open entry of the device has failed. -/
def openFailed (s : FileSys) (p : Fin NPROC) (i : Fd) (fp : FilePtr) (e : Errno) : FileSys :=
  (((s.setFd p i none).addCount fp (-1)).setError p (some e)).goto p (.iput (s.file fp).f_inode)

/-- `pipe` after its `ialloc`: allocate 2 file structures and put it all together with flags. -/
def pipe (s : FileSys) (p : Fin NPROC) (ip : InodePtr) : FileSys :=
  match s.falloc p with
  | .error e => (s.setError p (some e)).goto p (.iput ip)
  | .ok (r, rf, s) =>
    match s.falloc p with
    | .error e =>
      (((s.setFile rf { s.file rf with f_count := 0 }).setFd p r none).setError p (some e)).goto p
        (.iput ip)
    | .ok (_, wf, s) =>
      let s := s.setFile wf { s.file wf with
        f_flag := { fwrite := true, fpipe := true }, f_inode := ip }
      let s := s.setFile rf { s.file rf with
        f_flag := { fread := true, fpipe := true }, f_inode := ip }
      { s with inode := update s.inode ip { s.inode ip with i_count := 2, i_mode := {} } }.ret p none

def dup (s : FileSys) (p : Fin NPROC) (f : ℤ) : FileSys :=
  match s.getf p f with
  | .error e => s.ret p (some e)
  | .ok (_, fp) =>
    match s.ufalloc p with
    | .error e => s.ret p (some e)
    | .ok i => ((s.setFd p i (some fp)).addCount fp 1).ret p none

def close (s : FileSys) (p : Fin NPROC) (f : ℤ) : FileSys :=
  match s.getf p f with
  | .error e => s.ret p (some e)
  | .ok (rf, fp) => ((s.setError p none).setFd p rf none).closef p fp .ret

/-- The first slot of the process table without a process. -/
def freeProc (s : FileSys) : Option (Fin NPROC) :=
  (List.finRange NPROC).find? fun q => s.pc q == .null

/-- One turn of the loop of `newproc` over the descriptors of the parent. -/
def countFd (p : Fin NPROC) (s : FileSys) (i : Fd) : FileSys :=
  match s.u_ofile p i with
  | some ofp => s.addCount ofp 1
  | none => s

def countFds (s : FileSys) (p : Fin NPROC) : FileSys :=
  (List.finRange NOFILE).foldl (countFd p) s

/-- `fork`, and the `newproc` that it calls. The user area, with its descriptors, is copied after
the loop; `newproc` may sleep for core or swap space in between, but nothing runs in either image
until the copy is made. -/
def fork (s : FileSys) (p : Fin NPROC) : FileSys :=
  match s.freeProc with
  | none => s.ret p (some .EAGAIN)
  | some q =>
    let s := s.countFds p
    ({ s with u_ofile := update s.u_ofile q (s.u_ofile p) }.goto q .user).ret p none

/-- One turn of the loop of `exit`, or what follows the loop. Signals are ignored by now. -/
def exit (s : FileSys) (p : Fin NPROC) (w : ℕ) : FileSys :=
  if h : w < NOFILE then
    match s.u_ofile p ⟨w, h⟩ with
    | none => s.goto p (.exit (w + 1))
    | some fp => (s.setFd p ⟨w, h⟩ none).closef p fp (.exit (w + 1))
  else
    s.goto p .szomb

end FileSys

/-! ## Steps -/

/-- The calls a process can make. -/
inductive FileCall
  /-- `open` and `creat`. -/
  | open1 (mode : FFlag)
  | pipe
  | dup (f : ℤ)
  | close (f : ℤ)
  | fork
  | exit
  deriving DecidableEq, Repr

/-- What can happen next. -/
inductive FileAct
  /-- A process enters the kernel. -/
  | call (p : Fin NPROC) (c : FileCall)
  /-- What a process waited for has an outcome and it goes on: an inode for `namei` and `ialloc`,
  an error for them or for the open entry of a device. -/
  | found (p : Fin NPROC) (ip : InodePtr)
  | failed (p : Fin NPROC) (e : Errno)
  /-- `open1` refuses the inode that `namei` has found. -/
  | denied (p : Fin NPROC) (ip : InodePtr) (e : Errno)
  /-- The process goes on: a device entry or an `iput` returns, or the loop of `exit` turns. -/
  | cont (p : Fin NPROC)
  /-- A signal ends the call in which the process sleeps: `resume(u_qsav)`. -/
  | abandon (p : Fin NPROC)
  /-- The parent collects a zombie. -/
  | wait (q : Fin NPROC)
  /-- The rest of the kernel changes the inodes. -/
  | inodes (t : InodePtr → FInode)

namespace FileSys

/-- A process enters a system call. -/
def call (s : FileSys) (p : Fin NPROC) : FileCall → FileSys
  | .open1 mode => (s.setError p none).goto p (.namei mode)
  | .pipe => (s.setError p none).goto p .ialloc
  | .dup f => s.dup p f
  | .close f => s.close p f
  | .fork => s.fork p
  | .exit => s.goto p (.exit 0)

/-- One step; `none` if it cannot happen. -/
def step (s : FileSys) : FileAct → Option FileSys
  | .call p c => if s.pc p = .user then some (s.call p c) else none
  | .found p ip =>
    -- `namei` or `ialloc` has an inode: the open goes on, or the pipe's
    match s.pc p with
    | .namei mode => some ((s.addInodeCount ip 1).open1 p ip mode)
    | .ialloc => some ((s.addInodeCount ip 1).pipe p ip)
    | _ => none
  | .failed p e =>
    -- the sleeping call comes back with an error
    match s.pc p with
    | .namei _ => some (s.ret p (some e))
    | .ialloc => some (s.ret p (some e))
    | .openi i fp => some (s.openFailed p i fp e)
    | _ => none
  | .denied p ip e =>
    match s.pc p with
    | .namei _ => some (((s.addInodeCount ip 1).setError p (some e)).goto p (.iput ip))
    | _ => none
  | .cont p =>
    -- a sleep in a call ends and the call goes on behind it
    match s.pc p with
    | .openi _ _ => some (s.ret p none)
    | .iput ip => some ((s.addInodeCount ip (-1)).goto p .user)
    | .d_close fp k => some (s.goto p (.closeiIput fp k))
    | .closeiIput fp k => some ((s.addInodeCount (s.file fp).f_inode (-1)).closefDone p fp k)
    | .exit w => some (s.exit p w)
    | _ => none
  | .abandon p =>
    -- a signal ends the call at its sleep; what it holds is not given back
    match s.pc p with
    | .namei _ => some (s.goto p .user)
    | .openi _ _ => some (s.goto p .user)
    | .ialloc => some (s.goto p .user)
    | .d_close _ .ret => some (s.goto p .user)
    | _ => none
  -- the parent reaps the zombie
  | .wait q => if s.pc q = .szomb then some (s.goto q .null) else none
  | .inodes t => some { s with inode := t }

/-- The first process, with an empty file table. -/
def boot (t : InodePtr → FInode) : FileSys where
  file _ := {}
  inode := t
  u_ofile _ _ := none
  u_error _ := none
  pc p := if p = 0 then .user else .null

end FileSys

end UnixV6
