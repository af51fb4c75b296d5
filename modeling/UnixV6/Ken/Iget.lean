import Mathlib
import UnixV6.H.Inode
import UnixV6.Lib.RefCount

/-!
# The in-core inode table (`ken/iget.c`, with `plock`, `prele` and `update`)

`iget`, `iput`, `iupdat`, `plock` and `prele`, and the `update` of `sync`, each cut where it can
sleep. The system calls are the most general callers: any process may call any of them at any
time, with a reference that some call of `iget` has produced.

A reference is kept in a holder: a file table entry, a current directory, a mount table entry, or
a local variable of a system call; `ref k` is the slot that the holder `k` points to. Callers keep
four promises, which the guards of `InodeSys.step` state: a holder is filled when it is empty; a
reference is released once, and not while another process works on the file through the same holder
(a file table entry is released with its last descriptor); only who has locked an inode calls
`prele`; and inode numbers are not 0. The mount table does not change.

A process that sleeps may be woken at any time and looks again, so wakeups need no state of their
own. Left out: the times of an inode, the blocks that `itrunc` frees, the super blocks that `update`
writes first.
-/

open Function

namespace UnixV6

/-- The inode number of every root directory. -/
def ROOTINO : ℤ := 1

/-- Where a process stands. The routines that sleep remember what they have computed before. -/
inductive IgetPc (κ : Type)
  /-- In none of the routines below. -/
  | idle
  /-- At `loop` in `iget`, for the holder `k`: asked for `name`, now looking for `(dev, ino)`. -/
  | iget (k : κ) (name : ℤ × ℤ) (dev ino : ℤ)
  /-- In the `bread` of `iget`, with a slot taken. -/
  | igetRead (k : κ) (name : ℤ × ℤ)
  /-- In `plock`. -/
  | plock (k : κ)
  /-- In the `itrunc` and `ifree` of `iput`. -/
  | itrunc (k : κ)
  /-- In the `bread` of the `iupdat` of `iput`, with the disk slot computed. -/
  | iupdat (k : κ) (dev ino : ℤ)
  /-- In the `bwrite` of that `iupdat`. -/
  | iupdatWrite (k : κ)
  /-- In `update`, at the super blocks. -/
  | super
  /-- In `update`, at a slot of the inode table. -/
  | scan (n : ℕ)
  /-- In the `bread` and the `bwrite` of the `iupdat` of `update`. -/
  | updRead (ip : InodePtr) (dev ino : ℤ)
  | updWrite (ip : InodePtr)
  deriving DecidableEq

/-- The mount table. `m_ref` is the reference of an entry to the inode it is mounted on, and
`m_name` the device and number of that inode. -/
structure MountTable (κ : Type) where
  m_inodp : Fin NMOUNT → Option InodePtr
  m_dev : Fin NMOUNT → ℤ
  m_ref : Fin NMOUNT → κ
  m_name : Fin NMOUNT → ℤ × ℤ
  /-- `getfs(dev)->s_ronly`. -/
  s_ronly : ℤ → Bool

/-- The inode table, the disk inodes, and the processes. -/
structure InodeSys (π κ : Type) where
  inode : InodePtr → Inode
  dinode : ℤ → ℤ → Dinode
  /-- What the holders of references point to. -/
  ref : κ → Option InodePtr
  /-- The process has locked, through this holder, and not released yet. -/
  locked : π → κ → Bool
  updlock : Bool
  pc : π → IgetPc κ

namespace InodeSys

variable {π κ : Type} [DecidableEq π] [DecidableEq κ]

def goto (s : InodeSys π κ) (p : π) (k : IgetPc κ) : InodeSys π κ :=
  { s with pc := update s.pc p k }

/-- `*ip = i`. -/
def setInode (s : InodeSys π κ) (ip : InodePtr) (i : Inode) : InodeSys π κ :=
  { s with inode := update s.inode ip i }

def setRef (s : InodeSys π κ) (k : κ) (v : Option InodePtr) : InodeSys π κ :=
  { s with ref := update s.ref k v }

/-- The process has locked the inode of the holder. -/
def setLocked (s : InodeSys π κ) (p : π) (k : κ) : InodeSys π κ :=
  { s with locked := update s.locked p (update (s.locked p) k true) }

/-- The process has no lock on `ip` any more. -/
def unlocked (s : InodeSys π κ) (p : π) (ip : InodePtr) : InodeSys π κ :=
  { s with locked := update s.locked p fun k => s.locked p k && s.ref k != some ip }

/-! ## `prele` and `plock` -/

/-- Unlock an inode; if the WANT bit is on, wakeup. -/
def prele (s : InodeSys π κ) (ip : InodePtr) : InodeSys π κ :=
  s.setInode ip { s.inode ip with ilock := false, iwant := false }

/-- Lock a pipe; if it is already locked, set the WANT bit and sleep. -/
def plock (s : InodeSys π κ) (p : π) (k : κ) (ip : InodePtr) : InodeSys π κ :=
  if (s.inode ip).ilock then
    (s.setInode ip { s.inode ip with iwant := true }).goto p (.plock k)
  else
    ((s.setInode ip { s.inode ip with ilock := true }).setLocked p k).goto p .idle

/-! ## `iupdat` -/

/-- The disk slot that `iupdat` is going to write, if it writes at all. -/
def iupdatSlot (M : MountTable κ) (i : Inode) : Option (ℤ × ℤ) :=
  if (i.iupd || i.iacc) && !M.s_ronly i.i_dev then some (i.i_dev, i.i_number) else none

/-- The in-core fields go to the disk slot. -/
def iupdatCopy (s : InodeSys π κ) (ip : InodePtr) (dev ino : ℤ) : InodeSys π κ :=
  { s with dinode := update s.dinode dev (update (s.dinode dev) ino (s.inode ip).toDinode) }

/-! ## `iget` -/

/-- The slot that the scan of `iget` stops at. -/
def findInode (s : InodeSys π κ) (dev ino : ℤ) : Option InodePtr :=
  (List.finRange NINODE).find? fun ip => (s.inode ip).i_dev == dev && (s.inode ip).i_number == ino

/-- The first free slot. -/
def findFree (s : InodeSys π κ) : Option InodePtr :=
  (List.finRange NINODE).find? fun ip => (s.inode ip).i_count == 0

/-- The mount table entry of a slot that is mounted on. -/
def findMount (M : MountTable κ) (ip : InodePtr) : Option (Fin NMOUNT) :=
  (List.finRange NMOUNT).find? fun m => M.m_inodp m == some ip

/-- The reference of `k` to the slot comes into being, with the lock. -/
def take (s : InodeSys π κ) (p : π) (k : κ) (ip : InodePtr) : InodeSys π κ :=
  (s.setRef k (some ip)).setLocked p k

/-- One pass of the loop of `iget`; `none` is the panic "no imt". -/
def iget (M : MountTable κ) (s : InodeSys π κ) (p : π) (k : κ) (name : ℤ × ℤ) (dev ino : ℤ) :
    Option (InodeSys π κ) :=
  match s.findInode dev ino with
  | some ip =>
    let i := s.inode ip
    if i.ilock then
      some ((s.setInode ip { i with iwant := true }).goto p (.iget k name dev ino))
    else if i.imount then
      match findMount M ip with
      | some m => some (s.goto p (.iget k name (M.m_dev m) ROOTINO))
      | none => none
    else
      some (((s.setInode ip { i with i_count := i.i_count + 1, ilock := true }).take p k ip).goto p
        .idle)
  | none =>
    match s.findFree with
    -- "Inode table overflow"
    | none => some (s.goto p .idle)
    | some ip =>
      let i := s.inode ip
      let taken : Inode := { i with
        ilock := true, iupd := false, iacc := false, imount := false, iwant := false
        i_count := i.i_count + 1, i_dev := dev, i_number := ino }
      some (((s.setInode ip taken).take p k ip).goto p (.igetRead k name))

/-- The end of `iget`, after its `bread`. -/
def igetDone (s : InodeSys π κ) (p : π) (ip : InodePtr) : InodeSys π κ :=
  let i := s.inode ip
  (s.setInode ip { i with toDinode := s.dinode i.i_dev i.i_number }).goto p .idle

/-! ## `iput` -/

/-- The end of `iput` on the last reference. -/
def iputDone (s : InodeSys π κ) (p : π) (k : κ) (ip : InodePtr) : InodeSys π κ :=
  let i := s.inode ip
  let gone : Inode := { i with
    ilock := false, iupd := false, iacc := false, imount := false, iwant := false
    i_count := i.i_count + -1#8, i_number := 0 }
  (((s.setInode ip gone).unlocked p ip).setRef k none).goto p .idle

/-- The `iupdat` of `iput`. -/
def iputUpdat (M : MountTable κ) (s : InodeSys π κ) (p : π) (k : κ) (ip : InodePtr) :
    InodeSys π κ :=
  match iupdatSlot M (s.inode ip) with
  | some (dev, ino) => s.goto p (.iupdat k dev ino)
  | none => s.iputDone p k ip

/-- Decrement reference count of an inode structure. On the last reference, write the inode out and
if necessary, truncate and deallocate the file. -/
def iput (M : MountTable κ) (s : InodeSys π κ) (p : π) (k : κ) (ip : InodePtr) : InodeSys π κ :=
  let i := s.inode ip
  if i.i_count = 1 then
    let s := (s.setInode ip { i with ilock := true }).setLocked p k
    if i.i_nlink.toInt ≤ 0 then s.goto p (.itrunc k) else s.iputUpdat M p k ip
  else
    let s := s.setInode ip { i with i_count := i.i_count + -1#8, ilock := false, iwant := false }
    ((s.unlocked p ip).setRef k none).goto p .idle

/-- What `itrunc` leaves of the in-core inode, and `i_mode = 0` after it. -/
def truncated (i : Inode) : Inode :=
  if i.i_mode &&& IFCHR ≠ 0 then
    { i with i_mode := 0 }
  else
    { i with i_mode := 0, i_size0 := 0, i_size1 := 0, i_addr := fun _ => 0, iupd := true }

/-! ## Steps -/

end InodeSys

/-- The holder of an `iget` or `iput` in progress: it is private to the process. -/
def IgetPc.holder {κ : Type} : IgetPc κ → Option κ
  | .iget k _ _ _ => some k
  | .igetRead k _ => some k
  | .itrunc k => some k
  | .iupdat k _ _ => some k
  | .iupdatWrite k => some k
  | _ => none

/-- What a process does next. -/
inductive InodeAct (π κ : Type)
  /-- Calls of `iget`, `iput`, `plock`, `prele` and `update`. -/
  | iget (p : π) (k : κ) (dev ino : ℤ)
  | iput (p : π) (k : κ)
  | plock (p : π) (k : κ)
  | prele (p : π) (k : κ)
  | update (p : π)
  /-- One reference more to the same inode: a child's current directory, a shared text segment,
  the second file structure of a pipe. -/
  | share (p : π) (k k' : κ)
  /-- A process changes the inode that it has a reference to and marks it. -/
  | modify (p : π) (k : κ) (d : Dinode) (iupd iacc : Bool)
  /-- The process goes on inside a routine; `error` is the `B_ERROR` of the `bread` of `iget`. -/
  | run (p : π) (error : Bool)
  /-- A signal ends the sleep of `plock`. -/
  | abandon (p : π)

namespace InodeSys

variable {π κ : Type} [DecidableEq π] [DecidableEq κ]

/-- No `iget` or `iput` is in progress for the holder. -/
def Settled (s : InodeSys π κ) (k : κ) : Prop := ∀ q, (s.pc q).holder ≠ some k

/-- Another process works on the file through the holder. -/
def UsedByOther (s : InodeSys π κ) (p : π) (k : κ) : Prop :=
  ∃ q, q ≠ p ∧ (s.locked q k = true ∨ s.pc q = .plock k)

instance [Fintype π] (s : InodeSys π κ) (k : κ) : Decidable (s.Settled k) :=
  inferInstanceAs (Decidable (∀ q, (s.pc q).holder ≠ some k))

instance [Fintype π] (s : InodeSys π κ) (p : π) (k : κ) : Decidable (s.UsedByOther p k) :=
  inferInstanceAs (Decidable (∃ q, q ≠ p ∧ (s.locked q k = true ∨ s.pc q = .plock k)))

/-- One step of `update` in its loop over the inodes. -/
def scan (M : MountTable κ) (s : InodeSys π κ) (p : π) (n : ℕ) : InodeSys π κ :=
  if h : n < NINODE then
    let ip : InodePtr := ⟨n, h⟩
    if (s.inode ip).ilock then
      s.goto p (.scan (n + 1))
    else
      let s := s.setInode ip { s.inode ip with ilock := true }
      match iupdatSlot M (s.inode ip) with
      | some (dev, ino) => s.goto p (.updRead ip dev ino)
      | none => (s.prele ip).goto p (.scan (n + 1))
  else
    { s with updlock := false }.goto p .idle

/-- The process goes on where it stands. -/
def run (M : MountTable κ) (s : InodeSys π κ) (p : π) (error : Bool) : Option (InodeSys π κ) :=
  match s.pc p with
  | .idle => none
  | .iget k name dev ino => s.iget M p k name dev ino
  | .igetRead k _ => (s.ref k).map fun ip => if error then s.iput M p k ip else s.igetDone p ip
  | .plock k => (s.ref k).map fun ip => s.plock p k ip
  | .itrunc k => (s.ref k).map fun ip =>
      (s.setInode ip (truncated (s.inode ip))).iputUpdat M p k ip
  | .iupdat k dev ino => (s.ref k).map fun ip =>
      (s.iupdatCopy ip dev ino).goto p (.iupdatWrite k)
  | .iupdatWrite k => (s.ref k).map fun ip => s.iputDone p k ip
  | .super => some (s.goto p (.scan 0))
  | .scan n => some (s.scan M p n)
  | .updRead ip dev ino => some ((s.iupdatCopy ip dev ino).goto p (.updWrite ip))
  | .updWrite ip => some ((s.prele ip).goto p (.scan (ip + 1)))

/-- One step; `none` if it cannot happen, or breaks a promise of the callers. -/
def step [Fintype π] (M : MountTable κ) (s : InodeSys π κ) : InodeAct π κ → Option (InodeSys π κ)
  -- only an idle process calls, and `iget` is not asked for inode zero
  | .iget p k dev ino =>
    if s.pc p = .idle ∧ s.ref k = none ∧ s.Settled k ∧ ino ≠ 0 then
      s.iget M p k (dev, ino) dev ino
    else none
  | .iput p k =>
    -- the last reference is given back only where nobody else uses it
    if s.pc p = .idle ∧ s.Settled k ∧ ¬ s.UsedByOther p k ∧ ∀ m, M.m_inodp m ≠ none → M.m_ref m ≠ k then
      (s.ref k).map fun ip => s.iput M p k ip
    else none
  | .plock p k =>
    if s.pc p = .idle ∧ s.Settled k then
      (s.ref k).map fun ip => s.plock p k ip
    else none
  | .prele p k =>
    -- `prele` of an inode that this process has not locked would clear another's
    if s.pc p = .idle ∧ s.locked p k = true ∧ s.Settled k then
      (s.ref k).map fun ip => (s.prele ip).unlocked p ip
    else none
  | .update p =>
    if s.pc p = .idle then
      if s.updlock then some s else some ({ s with updlock := true }.goto p .super)
    else none
  | .share p k k' =>
    -- a second reference by the same process: `dup`, or a second name
    if s.pc p = .idle ∧ s.Settled k ∧ s.Settled k' ∧ s.ref k' = none then
      (s.ref k).map fun ip => (s.setInode ip
        { s.inode ip with i_count := (s.inode ip).i_count + 1 }).setRef k' (some ip)
    else none
  | .modify p k d iupd iacc =>
    if s.pc p = .idle ∧ s.Settled k then
      (s.ref k).map fun ip => s.setInode ip
        { s.inode ip with toDinode := d, iupd := iupd, iacc := iacc }
    -- a write to the inode the process holds
    else none
  | .run p error => s.run M p error
  | .abandon p =>
    match s.pc p with
    | .plock _ => some (s.goto p .idle)
    | _ => none

end InodeSys

end UnixV6
