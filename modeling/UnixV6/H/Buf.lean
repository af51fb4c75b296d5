import Mathlib

/-!
# Buffer flags (`h/buf.h`)

The flags of `b_flags`. Left out are `B_MAP`, which is never set, and `B_RELOC`, never tested.
-/

namespace UnixV6

/-- `b_flags`. -/
structure BFlags where
  b_read : Bool := false
  b_done : Bool := false
  b_error : Bool := false
  b_busy : Bool := false
  b_phys : Bool := false
  b_wanted : Bool := false
  b_async : Bool := false
  b_delwri : Bool := false
  deriving DecidableEq, Repr

/-- Blocks on a disk unit. -/
def NRKBLK : ℕ := 4872

/-- `minor(dev)`. -/
def minor (dev : ℕ) : ℕ := dev % 256

end UnixV6
