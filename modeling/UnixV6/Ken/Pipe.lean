import Mathlib
import UnixV6.Lib.Slice

/-!
# Pipes (`ken/pipe.c`, with `ken/rdwri.c` as it works on the file of a pipe)

One pipe: its inode and the two file structures, and any number of processes that read and write
it. `readp` and `writep` are cut where they can sleep: in `plock`, on `ip+1` and `ip+2`, and in
`bmap` or `bread` before each block that `readi` and `writei` move. The file of the pipe has at most
`PIPSIZ` bytes, blocks for it can be allocated, and user addresses are valid; so each turn of the
loops of `readi` and `writei` moves its bytes.

Counts are 16-bit and at most 32767 here, so they are natural numbers. A process in `plock` may be
woken at any time and looks again. `appended`, `reads` and `writes` record what the calls have done.
-/

open Function

namespace UnixV6

/-- Max allowable buffering per pipe. -/
def PIPSIZ : ℕ := 4096

/-- Where a process stands. -/
inductive PipePc (β : Type)
  | user
  /-- In `plock`, called by `readp`, with `u_count`. -/
  | readPlock (count : ℕ)
  /-- Asleep on `ip+2` for data. -/
  | readSleep (count : ℕ)
  /-- In the loop of `readi`, with the count of the call, `u_offset[1]` and the bytes passed so
  far. -/
  | readi (count off : ℕ) (got : List β)
  /-- In `plock`, called by `writep`, with the bytes of the call and how many are written. -/
  | writePlock (buf : List β) (done : ℕ)
  /-- Asleep on `ip+1` for space. -/
  | writeSleep (buf : List β) (done : ℕ)
  /-- In the loop of `writei`, with `u_offset[1]` and `u_count`. -/
  | writei (buf : List β) (done off count : ℕ)

/-- A write call that is over: its bytes, how many of them went into the pipe, and whether it
returned without an error. -/
structure WriteCall (β : Type) where
  buf : List β
  done : ℕ
  ok : Bool

/-- A pipe and its users. -/
structure PipeSys (π β : Type) where
  /-- The contents of the file. -/
  data : ℕ → β
  /-- `f_offset[1]` of the reading file structure. -/
  f_offset : ℕ
  i_size1 : ℕ
  i_count : ℕ
  ilock : Bool
  iwant : Bool
  /-- `IREAD` and `IWRITE` of `i_mode`: a reader or a writer wants to be woken. -/
  iread : Bool
  iwrite : Bool
  pc : π → PipePc β
  /-- Every byte that has been appended, with its writer. -/
  appended : List (π × β)
  /-- The count and the bytes of every read call that has returned, in order. -/
  reads : List (ℕ × List β)
  /-- The write calls of each process that are over, in order. -/
  writes : π → List (WriteCall β)

namespace PipeSys

variable {π β : Type} [DecidableEq π]

def goto (s : PipeSys π β) (p : π) (k : PipePc β) : PipeSys π β :=
  { s with pc := update s.pc p k }

/-- `wakeup(ip+1)`. -/
def wakeWriters (s : PipeSys π β) : PipeSys π β :=
  { s with pc := fun p =>
      match s.pc p with
      | .writeSleep buf done => .writePlock buf done
      | k => k }

/-- `wakeup(ip+2)`. -/
def wakeReaders (s : PipeSys π β) : PipeSys π β :=
  { s with pc := fun p =>
      match s.pc p with
      | .readSleep count => .readPlock count
      | k => k }

/-- Unlock; if WANT bit is on, wakeup. -/
def prele (s : PipeSys π β) : PipeSys π β :=
  { s with ilock := false, iwant := false }

/-- The return of a read call with the bytes it has passed. -/
def readDone (s : PipeSys π β) (p : π) (count : ℕ) (got : List β) : PipeSys π β :=
  { s with reads := s.reads ++ [(count, got)] }.goto p .user

/-- The end of a write call. -/
def writeDone (s : PipeSys π β) (p : π) (buf : List β) (done : ℕ) (ok : Bool) : PipeSys π β :=
  { s with writes := update s.writes p (s.writes p ++ [WriteCall.mk buf done ok]) }.goto p .user

/-! ## Reading -/

/-- The test of the loop of `readi`, and what `readp` does after the loop. -/
def readiLoop (s : PipeSys π β) (p : π) (count off : ℕ) (got : List β) : PipeSys π β :=
  if got.length = count ∨ s.i_size1 ≤ off then
    ({ s with f_offset := off }.prele).readDone p count got
  else
    s.goto p (.readi count off got)

/-- One turn of the loop of `readi`: move what is left of the block, of the count and of the file,
whichever is least. -/
def readi (s : PipeSys π β) (p : π) (count off : ℕ) (got : List β) : PipeSys π β :=
  let n := min (min (512 - off % 512) (count - got.length)) (s.i_size1 - off)
  s.readiLoop p count (off + n) (got ++ slice s.data off (off + n))

/-- If the head (read) has caught up with the tail (write), reset both to 0. -/
def rewind (s : PipeSys π β) : PipeSys π β :=
  if s.f_offset ≠ 0 then
    let s := { s with f_offset := 0, i_size1 := 0 }
    if s.iwrite then { s with iwrite := false }.wakeWriters else s
  else s

/-- `readp` from `loop` on. -/
def readp (s : PipeSys π β) (p : π) (count : ℕ) : PipeSys π β :=
  if s.ilock then
    { s with iwant := true }.goto p (.readPlock count)
  else if s.f_offset = s.i_size1 then
    let s := s.rewind.prele
    if s.i_count < 2 then s.readDone p count []
    else { s with iread := true }.goto p (.readSleep count)
  else
    { s with ilock := true }.readiLoop p count s.f_offset []

/-! ## Writing -/

/-- `writep` from `loop` on. -/
def writep (s : PipeSys π β) (p : π) (buf : List β) (done : ℕ) : PipeSys π β :=
  if s.ilock then
    { s with iwant := true }.goto p (.writePlock buf done)
  else if buf.length - done = 0 then
    s.prele.writeDone p buf done true
  else if s.i_count < 2 then
    -- `EPIPE`
    s.prele.writeDone p buf done false
  else if s.i_size1 = PIPSIZ then
    { s with iwrite := true }.prele.goto p (.writeSleep buf done)
  else
    { s with ilock := true }.goto p
      (.writei buf done s.i_size1 (min (buf.length - done) (PIPSIZ - s.i_size1)))

/-- What `writep` does after `writei`. -/
def written (s : PipeSys π β) (p : π) (buf : List β) (done : ℕ) : PipeSys π β :=
  let s := s.prele
  let s := if s.iread then { s with iread := false }.wakeReaders else s
  s.goto p (.writePlock buf done)

/-- One turn of the loop of `writei`: move what is left of the block or of the count. -/
def writei (s : PipeSys π β) (p : π) (buf : List β) (done off count : ℕ) : PipeSys π β :=
  let n := min (512 - off % 512) count
  let bs := (buf.drop done).take n
  let s := { s with
    data := overwrite s.data off bs
    appended := s.appended ++ bs.map (p, ·)
    i_size1 := if s.i_size1 < off + n then off + n else s.i_size1 }
  if count - n = 0 then s.written p buf (done + n)
  else s.goto p (.writei buf (done + n) (off + n) (count - n))

/-- What `closef` does for a pipe: make sure the pipe protocol does not constipate. -/
def unclog (s : PipeSys π β) : PipeSys π β :=
  { s with iread := false, iwrite := false }.wakeWriters.wakeReaders

end PipeSys

/-! ## Steps -/

/-- What can happen next. -/
inductive PipeAct (π β : Type)
  | read (p : π) (count : ℕ)
  | write (p : π) (buf : List β)
  /-- The process goes on. -/
  | run (p : π)
  /-- A signal ends the sleep of a process. -/
  | abandon (p : π)
  /-- A wakeup for the lock of the inode that lies at `ip+1` or `ip+2`. -/
  | stray (p : π)
  /-- `closef` of one of several descriptors of a side. -/
  | closef
  /-- `closef` of the last descriptor of a side: with `closei` and `iput`. -/
  | closei

namespace PipeSys

variable {π β : Type} [DecidableEq π]

/-- One step; `none` if it cannot happen. A process that sleeps on `ip+1` or `ip+2` goes on only
after a wakeup. -/
def step (s : PipeSys π β) : PipeAct π β → Option (PipeSys π β)
  | .read p count =>
    match s.pc p with
    | .user => if count ≤ 32767 then some (s.readp p count) else none
    | _ => none
  | .write p buf =>
    match s.pc p with
    | .user => if buf.length ≤ 32767 then some (s.writep p buf 0) else none
    | _ => none
  | .run p =>
    match s.pc p with
    | .readPlock count => some (s.readp p count)
    | .readi count off got => some (s.readi p count off got)
    | .writePlock buf done => some (s.writep p buf done)
    | .writei buf done off count => some (s.writei p buf done off count)
    | .user | .readSleep _ | .writeSleep _ _ => none
  | .abandon p =>
    match s.pc p with
    | .readPlock _ | .readSleep _ => some (s.goto p .user)
    | .writePlock buf done | .writeSleep buf done => some (s.writeDone p buf done false)
    | .user | .readi _ _ _ | .writei _ _ _ _ => none
  | .stray p =>
    match s.pc p with
    | .readSleep count => some (s.goto p (.readPlock count))
    | .writeSleep buf done => some (s.goto p (.writePlock buf done))
    | .user | .readPlock _ | .readi _ _ _ | .writePlock _ _ | .writei _ _ _ _ => none
  | .closef => some s.unclog
  | .closei =>
    -- `iput` ends with `prele`, whoever holds the lock
    if 0 < s.i_count then some { s.unclog with i_count := s.i_count - 1 }.prele else none

/-- A pipe that has just been made. -/
def boot (data : ℕ → β) : PipeSys π β where
  data := data
  f_offset := 0
  i_size1 := 0
  i_count := 2
  ilock := false
  iwant := false
  iread := false
  iwrite := false
  pc _ := .user
  appended := []
  reads := []
  writes _ := []

end PipeSys

end UnixV6
