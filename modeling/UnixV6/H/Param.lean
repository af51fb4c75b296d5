import Mathlib

/-!
# Tunable variables (`h/param.h`)
-/

namespace UnixV6

/-- Max number of processes. -/
abbrev NPROC : ℕ := 50

/-- Number of in core inodes. -/
abbrev NINODE : ℕ := 100

/-- Number of in core file structures. -/
abbrev NFILE : ℕ := 100

/-- Max open files per process. -/
abbrev NOFILE : ℕ := 15

/-- Number of mountable file systems. -/
abbrev NMOUNT : ℕ := 5

/-- Size of buffer cache. -/
abbrev NBUF : ℕ := 15

instance : NeZero NPROC := ⟨by decide⟩
instance : NeZero NINODE := ⟨by decide⟩
instance : NeZero NFILE := ⟨by decide⟩
instance : NeZero NMOUNT := ⟨by decide⟩
instance : NeZero NBUF := ⟨by decide⟩

/-- Fixed process size in pages. -/
def PSIZE : ℕ := 18

/-- Start of user space page. -/
def USPACE : ℕ := 0x20

end UnixV6
