import UnixV6.Dmr.Bio
import UnixV6.Ken.Rdwri

/-!
# Which sectors the drives get (`dmr/rk.c`)

A drive has `NRKBLK` blocks, and one with a minor number above 7 is a row of several drives.
`rkstrategy` compares the block number of a request with the size as `int`s, so it takes every
negative number. `devstart` adds the block number to the drive's first sector, also as `int`s: the
sectors below the first one of a drive are those of another drive.
-/

namespace UnixV6.Bio

/-- The drive with this minor number. There is one block device. -/
def rkdev (m : BitVec 8) : Dev := m.setWidth 16

/-- The blocks of the drive. -/
def rkSize (m : BitVec 8) : ℤ := NRKBLK * max 1 ((m.toNat : ℤ) - 7)

/-- Block `b` of drive `m` is on the drive, and no other request is sent to its sector. -/
structure Apart (m : BitVec 8) (b : Dev) : Prop where
  on_drive : 0 ≤ b.toInt ∧ b.toInt < rkSize m
  alone : ∀ m' b', rkRejects (rkdev m') b' = false →
    rkSector (rkdev m') b' = rkSector (rkdev m) b → m' = m ∧ b' = b

/-- The block number of a sector on a drive. -/
def blockAt (m : BitVec 8) (s : BitVec 16) : Dev := s - BitVec.ofNat 16 NRKBLK * (rkdev m &&& 0xff)

theorem rkSector_blockAt (m : BitVec 8) (s : BitVec 16) : rkSector (rkdev m) (blockAt m s) = s :=
  BitVec.sub_add_cancel _ _

theorem one_drive : ∀ m : BitVec 8, m.toNat ≤ 7 → ((rkdev m &&& 0xff) - 7).sle 0 = true := by
  decide +kernel

/-- The first eight drives take every block number below their size. -/
theorem rkRejects_eq_false {m : BitVec 8} {b : Dev} (hm : m.toNat ≤ 7) (hb : b.toInt < NRKBLK) :
    rkRejects (rkdev m) b = false := by
  rw [rkRejects]
  simp only [one_drive m hm, if_true, BitVec.sle_eq_decide, decide_eq_false_iff_not, not_le]
  exact hb

theorem bound_le_rkSize : ∀ m : BitVec 8,
    (BitVec.ofNat 16 NRKBLK * if ((rkdev m &&& 0xff) - 7).sle 0 then 1 else
      (rkdev m &&& 0xff) - 7).toInt ≤ rkSize m := by
  decide +kernel

/-- The bound may have wrapped, but no block behind the end of a drive is below it. What is missing
is a test for negative numbers. -/
theorem on_drive_iff {m : BitVec 8} {b : Dev} (h : rkRejects (rkdev m) b = false) :
    0 ≤ b.toInt ∧ b.toInt < rkSize m ↔ 0 ≤ b.toInt := by
  rw [rkRejects] at h
  simp only [BitVec.sle_eq_decide, decide_eq_false_iff_not, not_le] at h
  exact and_iff_left (lt_of_lt_of_le h (bound_le_rkSize m))

/-- Each of them takes more than half of all sectors, so that there are two of them for each. -/
theorem exists_two_drives (s : BitVec 16) : ∃ m m' : BitVec 8, m ≠ m' ∧
    rkRejects (rkdev m) (blockAt m s) = false ∧ rkRejects (rkdev m') (blockAt m' s) = false := by
  have htake : ∀ m : BitVec 8, m.toNat ≤ 7 → (blockAt m s).toInt < NRKBLK →
      rkRejects (rkdev m) (blockAt m s) = false := fun _ => rkRejects_eq_false
  have h0 : blockAt 0 s = s - 0 := rfl
  have h1 : blockAt 1 s = s - 4872 := rfl
  have h6 : blockAt 6 s = s - 29232 := rfl
  have h7 : blockAt 7 s = s - 34104 := rfl
  -- a block is taken when it is small or, as a signed number, negative
  have hsmall : ∀ b : Dev, b.toNat < 4872 ∨ 32768 ≤ b.toNat → b.toInt < NRKBLK := by
    intro b hb
    rw [BitVec.toInt_eq_toNat_cond, NRKBLK]
    split <;> omega
  by_cases hlow : s.toNat < 4872 ∨ 37640 ≤ s.toNat
  · refine ⟨0, 1, by decide, htake 0 (by decide) (hsmall _ ?_), htake 1 (by decide) (hsmall _ ?_)⟩
    · rw [h0]
      bv_omega
    · rw [h1]
      bv_omega
  by_cases hmid : s.toNat < 34104
  · refine ⟨6, 7, by decide, htake 6 (by decide) (hsmall _ ?_), htake 7 (by decide) (hsmall _ ?_)⟩
    · rw [h6]
      bv_omega
    · rw [h7]
      bv_omega
  · refine ⟨7, 0, by decide, htake 7 (by decide) (hsmall _ ?_), htake 0 (by decide) (hsmall _ ?_)⟩
    · rw [h7]
      bv_omega
    · rw [h0]
      bv_omega

/-- There are requests for two drives with the same sector. -/
theorem not_apart (m : BitVec 8) (b : Dev) : ¬Apart m b := by
  rintro ⟨-, halone⟩
  obtain ⟨m₁, m₂, hne, h₁, h₂⟩ := exists_two_drives (rkSector (rkdev m) b)
  have heq₁ := (halone m₁ _ h₁ (rkSector_blockAt m₁ _)).1
  have heq₂ := (halone m₂ _ h₂ (rkSector_blockAt m₂ _)).1
  exact hne (heq₁.trans heq₂.symm)

/-- So only the requests that are rejected do no harm. -/
theorem taken_apart_iff (m : BitVec 8) (b : Dev) :
    (rkRejects (rkdev m) b = false → Apart m b) ↔ rkRejects (rkdev m) b = true := by
  constructor
  · intro h
    by_contra htaken
    exact not_apart m b (h (Bool.eq_false_iff.mpr htaken))
  · intro hrejected htaken
    rw [hrejected] at htaken
    exact absurd htaken (by decide)

/-- A read of drive 1 as a file, at an offset of about 30 megabytes, gets block 0 of drive 0. -/
theorem not_apart_drive_one : ∃ u : IoArgs, u.u_offset = 31059968 ∧ u.lbn = -4872 ∧
    rkRejects (rkdev 1) u.lbn = false ∧ rkRejects (rkdev 0) 0 = false ∧
    rkSector (rkdev 1) u.lbn = rkSector (rkdev 0) 0 ∧
    ¬(rkRejects (rkdev 1) u.lbn = false → Apart 1 u.lbn) := by
  refine ⟨{ u_count := 512, u_offset := 31059968, u_base := 0, u_error := 0 }, rfl, by decide,
    by decide, by decide, by decide, fun h => ?_⟩
  exact absurd (h (by decide)).on_drive.1 (by decide)

end UnixV6.Bio
