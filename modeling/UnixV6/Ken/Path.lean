import UnixV6.Ken.Directory
import UnixV6.Ken.IgetError

/-!
# Paths (`ken/nami.c`, with `iget` and `iput` of `ken/iget.c`)

`namei` as a whole, for a call that runs alone on disks that work: from directory to directory, with
the inode table and the mount table, until the path or the patience of a directory is at an end. A
path is what `*func` returns up to the `NUL`. No block is allocated: a directory has no holes.

The loop of `iget` over mounted devices stops without `fuel`; it also stops where it panics, and
where it would sleep for a lock that nobody is going to release.
-/

open Function

namespace UnixV6

def ENOTDIR : ℕ := 20

/-- `IFDIR` of `i_mode`. -/
def IFDIR : BitVec 16 := 0x4000

/-- What there is of one device: its blocks, its free lists, and its super block. -/
structure Device where
  disk : BitVec 16 → Block
  free : List (BitVec 16)
  fp : Super
  s_inode : {l : List ℤ // l.length ≤ 100}
  s_ilock : Bool
  s_ronly : Bool

/-- The inode table, the devices, the mount table, and what the user structure has for `namei`. -/
structure NamiSys where
  inode : InodePtr → Inode
  device : ℤ → Device
  m_inodp : Fin NMOUNT → Option InodePtr
  m_dev : Fin NMOUNT → ℤ
  rootdir : InodePtr
  u_cdir : InodePtr
  u_uid : BitVec 8
  u_gid : BitVec 8
  time : ℕ → BitVec 16
  u_error : ℕ := 0
  u_dbuf : Name := fun _ => 0
  u_dent : Dent := ⟨0, fun _ => 0⟩
  u_offset : BitVec 16 := 0
  u_pdir : Option InodePtr := none

/-- Transfers that succeed. -/
def DiskErrors.none : DiskErrors := ⟨Option.none, Option.none, Option.none⟩

namespace NamiSys

def setInode (s : NamiSys) (p : InodePtr) (i : Inode) : NamiSys :=
  { s with inode := update s.inode p i }

/-- The inode table with one device. -/
def onDevice (s : NamiSys) (dev : ℤ) : IgetSys where
  inode := s.inode
  disk := (s.device dev).disk
  free := (s.device dev).free
  fp := (s.device dev).fp
  s_inode := (s.device dev).s_inode
  s_ilock := (s.device dev).s_ilock
  s_ronly := (s.device dev).s_ronly
  time := s.time
  u_error := s.u_error

/-- What has been done on one device. -/
def putDevice (s : NamiSys) (dev : ℤ) (t : IgetSys) : NamiSys :=
  { s with
    inode := t.inode
    device := update s.device dev
      { disk := t.disk
        free := t.free
        fp := t.fp
        s_inode := t.s_inode
        s_ilock := t.s_ilock
        s_ronly := t.s_ronly }
    u_error := t.u_error }

def iput (s : NamiSys) (p : InodePtr) : NamiSys :=
  let dev := (s.inode p).i_dev
  s.putDevice dev ((s.onDevice dev).iput .none p)

/-- The slot that the scan of `iget` stops at. -/
def findInode (s : NamiSys) (x : ℤ × ℤ) : Option InodePtr :=
  (List.finRange NINODE).find? fun p => (s.inode p).i_dev == x.1 && (s.inode p).i_number == x.2

/-- The mount table entry of a slot that is mounted on. -/
def findMount (s : NamiSys) (p : InodePtr) : Option (Fin NMOUNT) :=
  (List.finRange NMOUNT).find? fun m => s.m_inodp m == some p

/-- `iget`, with the pointer it returns. -/
def iget : ℕ → NamiSys → ℤ × ℤ → Option (Option InodePtr × NamiSys)
  | 0, _, _ => none
  | fuel + 1, s, x =>
    match s.findInode x with
    | some p =>
      let i := s.inode p
      if i.ilock then none
      else if i.imount then
        (s.findMount p).bind fun m => iget fuel s (s.m_dev m, ROOTINO)
      else some (some p, s.setInode p { i with i_count := i.i_count + 1, ilock := true })
    | none => ((s.onDevice x.1).iget .none x.1 x.2).map fun r => (r.1, s.putDevice x.1 r.2)

/-- What `access` looks at. No directory is the text of a process. -/
def rights (s : NamiSys) (i : Inode) : Rights where
  s_ronly := (s.device i.i_dev).s_ronly
  itext := false
  i_mode := i.i_mode
  i_uid := i.i_uid
  i_gid := i.i_gid
  u_uid := s.u_uid
  u_gid := s.u_gid

/-- The file of an inode. -/
def file (s : NamiSys) (i : Inode) : FileDev := (s.onDevice i.i_dev).file i

/-- From `out` on. -/
def out (s : NamiSys) (dp : InodePtr) (u_error : ℕ) : Option (Option InodePtr × NamiSys) :=
  some (none, { s with u_error }.iput dp)

/-- A slash. -/
def slash (c : BitVec 8) : Bool := c == 0x2f

/-- When the search of `dp` for a component is left; `next` goes on with the inode of the entry. -/
def left (fuel : ℕ) (s : NamiSys) (dp : InodePtr) (u_dbuf : Name)
    (next : NamiSys → InodePtr → Option (Option InodePtr × NamiSys)) (r : Leave × Search) :
    Option (Option InodePtr × NamiSys) :=
  let s := { s with
    u_dbuf, u_dent := r.2.u_dent, u_offset := r.2.u_offset, u_error := r.2.u_error }
  match r.1 with
  | .out => s.out dp s.u_error
  | .delete => some (some dp, s)
  | .create iupd =>
    let i := s.inode dp
    some (none, { s with u_pdir := some dp }.setInode dp { i with iupd := i.iupd || iupd })
  | .inode =>
    let d := (s.inode dp).i_dev
    (iget fuel (s.iput dp) (d, s.u_dent.u_ino.toInt)).bind fun r =>
      match r.1 with
      | none => some r
      | some dp => next r.2 dp

/-- From `cloop` on: `dp` is the last component matched, and `path` is what comes behind it. -/
def cloop (fuel flag : ℕ) : ℕ → NamiSys → InodePtr → List (BitVec 8) →
    Option (Option InodePtr × NamiSys)
  | 0, _, _, _ => none
  | turns + 1, s, dp, path =>
    if s.u_error ≠ 0 then s.out dp s.u_error
    else if path = [] then some (some dp, s)
    else if (s.inode dp).i_mode &&& IFMT ≠ IFDIR then s.out dp ENOTDIR
    else if access (s.rights (s.inode dp)) IEXEC ≠ 0 then
      s.out dp (access (s.rights (s.inode dp)) IEXEC)
    else
      -- gather up the name, and the slashes behind it
      let u_dbuf := gather (path.takeWhile fun c => !slash c)
      let path := (path.dropWhile fun c => !slash c).dropWhile slash
      (UnixV6.namei (s.rights (s.inode dp)) flag path.isEmpty u_dbuf (s.file (s.inode dp))).bind
        (left fuel s dp u_dbuf fun s dp => cloop fuel flag turns s dp path)

/-- Where a path begins. -/
def startdir (s : NamiSys) (path : List (BitVec 8)) : InodePtr :=
  if path.head?.any slash then s.rootdir else s.u_cdir

/-- Convert a pathname into a pointer to an inode, which is locked then. -/
def namei (fuel : ℕ) (s : NamiSys) (path : List (BitVec 8)) (flag : ℕ) :
    Option (Option InodePtr × NamiSys) :=
  let dp := s.startdir path
  -- the pointer that this `iget` returns is not looked at
  (iget fuel s ((s.inode dp).i_dev, (s.inode dp).i_number)).bind fun (_, s) =>
    let path := path.dropWhile slash
    if path = [] ∧ flag ≠ 0 then s.out dp ENOENT
    else cloop fuel flag (path.length + 1) s dp path

end NamiSys

/-! ## What a path means -/

/-- A tree of files, as a caller sees it. -/
structure FileTree (N : Type*) where
  /-- The error of looking for something in a file: it is no directory, or may not be searched. -/
  search : N → ℕ
  /-- The error of writing a file. -/
  write : N → ℕ
  /-- What a directory has under a name. -/
  entry : N → Name → Option N
  /-- The error of getting hold of a file. -/
  hold : N → ℕ

/-- What a path leads to. -/
inductive Resolved (N : Type*)
  | found (x : N)
  /-- A directory in which the last component may be made. -/
  | create (x : N) (c : Name)
  /-- A directory from which the last component may be taken. -/
  | delete (x : N) (c : Name)
  | error (u_error : ℕ)
  deriving DecidableEq

namespace FileTree

variable {N : Type*}

/-- Component by component from `x` on. -/
def resolve (T : FileTree N) (flag : ℕ) : N → List Name → Resolved N
  | x, [] => .found x
  | x, c :: cs =>
    if T.search x ≠ 0 then .error (T.search x)
    else
      match T.entry x c with
      | some y =>
        if flag = 2 ∧ cs = [] then
          if T.write x ≠ 0 then .error (T.write x) else .delete x c
        else if T.hold y ≠ 0 then .error (T.hold y)
        else resolve T flag y cs
      | none =>
        if flag = 1 ∧ cs = [] then
          if T.write x ≠ 0 then .error (T.write x) else .create x c
        else .error ENOENT

/-- `namei` on the tree: nothing can be made or taken away at the end of an empty path. -/
def namei (T : FileTree N) (flag : ℕ) (x : N) (path : List Name) : Resolved N :=
  if path = [] ∧ flag ≠ 0 then .error ENOENT else T.resolve flag x path

/-- One file leads to another. -/
def Leads (T : FileTree N) : N → N → Prop :=
  Relation.ReflTransGen fun x y => T.search x = 0 ∧ ∃ c, T.entry x c = some y

end FileTree

/-- The components of a path. -/
def components (path : List (BitVec 8)) : List Name :=
  ((path.splitOnP NamiSys.slash).filter (· ≠ [])).map gather

namespace NamiSys

/-- The inode as it is, in core or on its device. -/
def onDisk (s : NamiSys) (x : ℤ × ℤ) : Dinode :=
  Dinode.ofWords fun k => ((s.device x.1).disk (inodeBlock x.2)).word (inodeWord x.2 + k)

@[inherit_doc onDisk]
def current (s : NamiSys) (x : ℤ × ℤ) : Inode where
  toDinode := (s.findInode x).elim (s.onDisk x) fun p => (s.inode p).toDinode
  i_dev := x.1
  i_number := x.2

/-- Where `iget` goes: through the mount table to the root of the device that is mounted last. -/
def cross (s : NamiSys) : ℕ → ℤ × ℤ → Option (ℤ × ℤ)
  | 0, _ => none
  | fuel + 1, x =>
    match s.findInode x with
    | some p =>
      if (s.inode p).imount then (s.findMount p).bind fun m => s.cross fuel (s.m_dev m, ROOTINO)
      else some x
    | none => some x

/-- The inode numbers that a directory has under its names. -/
def inumber (s : NamiSys) (x : ℤ × ℤ) (c : Name) : Option (ℤ × ℤ) :=
  ((s.file (s.current x)).firstMatch c).map fun m =>
    (x.1, ((s.file (s.current x)).dent m).u_ino.toInt)

/-- The files of all devices as one tree. -/
def tree (s : NamiSys) (fuel : ℕ) : FileTree (ℤ × ℤ) where
  search x :=
    if (s.current x).i_mode &&& IFMT ≠ IFDIR then ENOTDIR
    else access (s.rights (s.current x)) IEXEC
  write x := access (s.rights (s.current x)) IWRITE
  entry x c := (s.inumber x c).bind (s.cross fuel)
  hold x := if s.findInode x = none ∧ ∀ p, (s.inode p).i_count ≠ 0 then ENFILE else 0

end NamiSys

end UnixV6
