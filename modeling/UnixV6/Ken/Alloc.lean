import UnixV6.H.Param

/-!
# The free list of a volume (`ken/alloc.c`)

`getfs`, `badblock`, `alloc` and `free`, for callers that come one after another. `blk dev bno` is
what `bread` finds, wherever the buffer cache has it. Of the super block only the fields that these
routines look at are kept; the values of an `int` are integers, and the one sum that can leave
the range of an `int` wraps.
-/

open Function

namespace UnixV6

/-- The super block, as far as the free list is concerned. `s_free` has a hundred entries. -/
structure Filsys where
  s_isize : ℤ
  s_fsize : ℤ
  s_nfree : ℤ
  s_free : ℕ → ℤ
  s_ninode : ℤ
  s_flock : Bool
  s_fmod : Bool

/-- What `alloc` returns. -/
inductive Alloc
  /-- The buffer of the block, cleared. -/
  | buf (bno : ℤ)
  /-- `NULL`, with `ENOSPC`. -/
  | nospace
  deriving DecidableEq, Repr

namespace Filsys

/-- Check that a block number is in the range between the I list and the size of the device. -/
def badblock (fp : Filsys) (bn : ℤ) : Bool :=
  bn < (fp.s_isize + 2).bmod 65536 ∨ bn ≥ fp.s_fsize

/-- The loop of `alloc`, with the number of entries left: the next block that is in range. -/
def pick (fp : Filsys) : ℕ → Filsys × Option ℤ
  | 0 => (fp, none)
  | n + 1 =>
    let fp := { fp with s_nfree := n }
    let bno := fp.s_free n
    if bno = 0 then (fp, none)
    else if fp.badblock bno then fp.pick n
    else (fp, some bno)

/-- Load the list from the block that holds it. -/
def reload (fp : Filsys) (words : ℕ → ℤ) : Filsys :=
  { fp with
    s_nfree := words 0
    s_free := fun i => if i < 100 then words (i + 1) else fp.s_free i }

/-- The words of the block that takes the list over. The buffer of `getblk` holds anything, and
keeps it past the list. -/
def save (fp : Filsys) (junk : ℕ → ℤ) : ℕ → ℤ
  | 0 => fp.s_nfree
  | i + 1 => if i < 100 then fp.s_free i else junk (i + 1)

/-- `fp->s_free[fp->s_nfree++] = bno`. -/
def push (fp : Filsys) (bno : ℤ) : Filsys :=
  { fp with
    s_free := update fp.s_free fp.s_nfree.toNat bno
    s_nfree := fp.s_nfree + 1
    s_fmod := true }

/-- The check that `getfs` makes of the counts. -/
def checkCounts (fp : Filsys) : Filsys :=
  if fp.s_nfree > 100 ∨ fp.s_ninode > 100 then
    { fp with
      s_nfree := 0
      s_ninode := 0 }
  else fp

/-- An exhausted list starts again with the end mark. -/
def restart (fp : Filsys) : Filsys :=
  if fp.s_nfree ≤ 0 then
    { fp with
      s_nfree := 1
      s_free := update fp.s_free 0 0 }
  else fp

end Filsys

/-- The mounted volumes. -/
structure Volumes where
  /-- Whether `m_bufp` is set. -/
  m_bufp : Fin NMOUNT → Bool
  m_dev : Fin NMOUNT → ℤ
  /-- The super block in the buffer of an entry. -/
  fs : Fin NMOUNT → Filsys
  blk : ℤ → ℤ → ℕ → ℤ

namespace Volumes

/-- The entry that `getfs` finds. -/
def find (s : Volumes) (dev : ℤ) : Option (Fin NMOUNT) :=
  (List.finRange NMOUNT).find? fun p => s.m_bufp p && s.m_dev p == dev

/-- The super block of a device, with a look at its counts; `none` is the panic `no fs`. -/
def getfs (s : Volumes) (dev : ℤ) : Option (Fin NMOUNT × Filsys) :=
  (s.find dev).map fun p => (p, (s.fs p).checkCounts)

def setFs (s : Volumes) (p : Fin NMOUNT) (fp : Filsys) : Volumes :=
  { s with fs := update s.fs p fp }

def setBlk (s : Volumes) (dev bno : ℤ) (words : ℕ → ℤ) : Volumes :=
  { s with blk := update s.blk dev (update (s.blk dev) bno words) }

/-- Obtain the next available free disk block. `none` is a panic, or a caller that goes to sleep on
`s_flock`. -/
def alloc (s : Volumes) (dev : ℤ) : Option (Volumes × Alloc) :=
  (s.getfs dev).bind fun (p, fp) =>
    if fp.s_flock then none
    else
      match fp.pick fp.s_nfree.toNat with
      | (fp, none) => some (s.setFs p { fp with s_nfree := 0 }, .nospace)
      | (fp, some bno) =>
        -- The last entry is also the block that holds the rest of the list.
        let fp := if fp.s_nfree ≤ 0 then fp.reload (s.blk dev bno) else fp
        some (s.setFs p { fp with s_fmod := true }, .buf bno)

/-- Place a disk block back on the free list. -/
def free (s : Volumes) (dev bno : ℤ) (junk : ℕ → ℤ) : Option Volumes :=
  (s.getfs dev).bind fun (p, fp) =>
    let fp := { fp with s_fmod := true }
    if fp.s_flock then none
    else if fp.badblock bno then some (s.setFs p fp)
    else
      let fp := fp.restart
      if fp.s_nfree ≥ 100 then
        some ((s.setBlk dev bno (fp.save junk)).setFs p ({ fp with s_nfree := 0 }.push bno))
      else
        some (s.setFs p (fp.push bno))

end Volumes

/-- What callers do with the volumes: the two calls for one device, and new contents for any block
that is in use. -/
inductive FsOp
  | alloc
  | free (bno : ℤ) (junk : ℕ → ℤ)
  | write (dev bno : ℤ) (words : ℕ → ℤ)

namespace Volumes

/-- One operation on `dev`, with what `alloc` returned. -/
def op (s : Volumes) (dev : ℤ) : FsOp → Option (Volumes × Option Alloc)
  | .alloc => (s.alloc dev).map fun (s, r) => (s, some r)
  | .free bno junk => (s.free dev bno junk).map fun s => (s, none)
  | .write d bno words => some (s.setBlk d bno words, none)

/-- A sequence of operations, with the results of the `alloc` calls. -/
def ops (s : Volumes) (dev : ℤ) : List FsOp → Option (Volumes × List Alloc)
  | [] => some (s, [])
  | o :: os => (s.op dev o).bind fun (s, r) =>
      (s.ops dev os).map fun (s, rs) => (s, r.toList ++ rs)

end Volumes

end UnixV6
