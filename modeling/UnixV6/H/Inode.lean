import UnixV6.H.Param

/-!
# The in-core inode (`h/inode.h`)

The identity of a slot, its flags and counts, and the fields that the routines of this development
look at. What the disk copy holds beyond these (owner, size, times) is left out here.
-/

namespace UnixV6

/-- An index into the inode table. -/
abbrev InodePtr : Type := Fin NINODE

/-- Types of inodes: `i_mode & IFMT`. -/
inductive IFmt
  | reg | dir | chr | blk
  deriving DecidableEq, Repr

/-- The part of `i_mode` that is read here: the type and the owner's permission bits, which a pipe
uses for its wakeup requests. -/
structure IMode where
  fmt : IFmt := .reg
  iread : Bool := false
  iwrite : Bool := false
  deriving DecidableEq, Repr

/-- The part of an inode that is read from and written to its disk slot, without the times. -/
structure Dinode where
  i_mode : BitVec 16 := 0
  i_nlink : BitVec 8 := 0
  i_uid : BitVec 8 := 0
  i_gid : BitVec 8 := 0
  i_size0 : BitVec 8 := 0
  i_size1 : BitVec 16 := 0
  i_addr : Fin 8 → BitVec 16 := fun _ => 0

/-- A slot of the in-core inode table. -/
structure Inode extends Dinode where
  ilock : Bool := false
  iupd : Bool := false
  iacc : Bool := false
  imount : Bool := false
  iwant : Bool := false
  /-- Reference count, a `char`. -/
  i_count : BitVec 8 := 0
  i_dev : ℤ := 0
  i_number : ℤ := 0

/-- `IFCHR`, the bit that block and character special files share, and `ILARG`. -/
def IFCHR : BitVec 16 := 0x2000
@[inherit_doc IFCHR] def ILARG : BitVec 16 := 0x1000

/-- An in-core inode as the file table sees it. -/
structure FInode where
  i_mode : IMode := {}
  /-- Reference count, a signed `char`. -/
  i_count : BitVec 8 := 0
  /-- The device, for a special file. -/
  i_addr0 : BitVec 16 := 0
  deriving DecidableEq, Repr

end UnixV6
