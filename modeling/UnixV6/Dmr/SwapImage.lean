import UnixV6.Dmr.Swap

/-!
# Swapping an image out and in

An image has 144 sectors, but its transfer keeps a 16 bit offset into one segment: the last 16
sectors go over the first ones. The two sectors at offset 0 are moreover never written, as
`idestart` takes a zero buffer to ask for a read. What comes back is the image only if the disk and
core held the missing bytes already.
-/

open Function

namespace UnixV6

variable {ρ : Type} [DecidableEq ρ]

/-- Bytes of a process image. -/
def imageBytes : ℕ := 73728

/-- A swap out from page `a` to sector `b` that took `s` to `s₁`, and a swap in to page `a₂` that
took `s₂` to `s₃`, are the identity on the image and touch nothing else. -/
structure RoundTrip (b a a₂ : ℕ) (s s₁ s₂ s₃ : Rk ρ) : Prop where
  image : ∀ i < imageBytes, s₃.mem (pageAddr a₂ + i) = s.mem (pageAddr a + i)
  sectors_out : ∀ σ, ¬ (b ≤ σ ∧ σ < b + imageSectors) → s₁.drive.sectors σ = s.drive.sectors σ
  sectors_in : ∀ σ, ¬ (b ≤ σ ∧ σ < b + imageSectors) → s₃.drive.sectors σ = s₂.drive.sectors σ
  mem_out : ∀ x, s₁.mem x = s.mem x
  mem_in : ∀ x, ¬ (pageAddr a₂ ≤ x ∧ x < pageAddr a₂ + imageBytes) → s₃.mem x = s₂.mem x

/-- The bytes that the transfers leave out are in place before: the sector that is read last to the
start of the image, and what lies beyond one segment. -/
structure AlreadyThere (b a a₂ : ℕ) (s s₂ : Rk ρ) : Prop where
  first : ∀ i < 512, sectorByte (s.drive.sectors (b + 128)) i = s.mem (pageAddr a + i)
  rest : ∀ i, 65536 ≤ i → i < imageBytes → s₂.mem (pageAddr a₂ + i) = s.mem (pageAddr a + i)

section

variable {mem : Core} {disk : ℕ → ℕ → Word} {b a : ℕ}

/-- A sector that is not at offset 0 of the segment is on the disk. -/
theorem swappedOut_byte {k i : ℕ} (hk : k < imageSectors) (hoff : 512 * k % 65536 ≠ 0)
    (hi : i < 512) :
    sectorByte (swappedOut mem disk b a imageSectors (b + k)) i =
      mem (pageAddr a + (512 * k % 65536 + i)) := by
  have hsub : b + k - b = k := by omega
  rw [swappedOut, hsub, if_pos ⟨by omega, by omega, hoff⟩, sectorByte_sectorOf (by omega) hi,
    linear_page, Nat.add_assoc]

/-- The sectors at offset 0 are as before. -/
theorem swappedOut_skipped {k : ℕ} (hoff : 512 * k % 65536 = 0) :
    swappedOut mem disk b a imageSectors (b + k) = disk (b + k) := by
  have hsub : b + k - b = k := by omega
  rw [swappedOut, hsub, if_neg fun h => h.2.2 hoff]

theorem swappedOut_outside {k σ : ℕ} (hσ : ¬ (b ≤ σ ∧ σ < b + k)) :
    swappedOut mem disk b a k σ = disk σ := by
  rw [swappedOut, if_neg fun h => hσ ⟨h.1, h.2.1⟩]

/-- The first sixteen sectors of the segment are read twice, the second time from 128 sectors
further on. -/
theorem swappedIn_wrapped {j i : ℕ} (hj : j < 16) (hi : i < 512) :
    swappedIn mem disk b a imageSectors (pageAddr a + (512 * j + i)) =
      sectorByte (disk (b + (j + 128))) i := by
  have hsub : pageAddr a + (512 * j + i) - pageAddr a = 512 * j + i := by omega
  have hdiv : (512 * j + i) / 512 = j := by omega
  have hmod : (512 * j + i) % 512 = i := by omega
  rw [swappedIn, hsub, hdiv, hmod, if_pos (by omega), if_pos (by simp only [imageSectors]; omega)]

theorem swappedIn_once {j i : ℕ} (hj : 16 ≤ j) (hj' : j < 128) (hi : i < 512) :
    swappedIn mem disk b a imageSectors (pageAddr a + (512 * j + i)) =
      sectorByte (disk (b + j)) i := by
  have hsub : pageAddr a + (512 * j + i) - pageAddr a = 512 * j + i := by omega
  have hdiv : (512 * j + i) / 512 = j := by omega
  have hmod : (512 * j + i) % 512 = i := by omega
  rw [swappedIn, hsub, hdiv, hmod, if_pos (by omega), if_neg (by simp only [imageSectors]; omega),
    if_pos (by simp only [imageSectors]; omega)]

/-- Nothing is read beyond the segment. -/
theorem swappedIn_outside {k x : ℕ} (hx : ¬ (pageAddr a ≤ x ∧ x < pageAddr a + 65536)) :
    swappedIn mem disk b a k x = mem x := by
  rw [swappedIn, if_neg hx]

end

section

variable {b a a₂ : ℕ} {s s₁ s₂ s₃ : Rk ρ}

omit [DecidableEq ρ] in
/-- The bytes of the segment from 512 on come back whatever the disk and core held. -/
theorem image_middle
    (h₁ : s₁.drive.sectors = swappedOut s.mem s.drive.sectors b a imageSectors)
    (h₂ : ∀ σ, b ≤ σ → σ < b + imageSectors → s₂.drive.sectors σ = s₁.drive.sectors σ)
    (h₃ : s₃.mem = swappedIn s₂.mem s₂.drive.sectors b a₂ imageSectors) {j i : ℕ} (hj : 0 < j)
    (hj' : j < 128) (hi : i < 512) :
    s₃.mem (pageAddr a₂ + (512 * j + i)) = s.mem (pageAddr a + (512 * j + i)) := by
  by_cases hwrap : j < 16
  · have hoff : 512 * (j + 128) % 65536 = 512 * j := by omega
    have hlt : j + 128 < imageSectors := by
      simp only [imageSectors]
      omega
    rw [h₃, swappedIn_wrapped hwrap hi, h₂ _ (by omega) (by omega), h₁,
      swappedOut_byte hlt (by omega) hi, hoff]
  · have hoff : 512 * j % 65536 = 512 * j := by omega
    have hlt : j < imageSectors := by
      simp only [imageSectors]
      omega
    rw [h₃, swappedIn_once (by omega) hj' hi, h₂ _ (by omega) (by omega), h₁,
      swappedOut_byte hlt (by omega) hi, hoff]

omit [DecidableEq ρ] in
/-- The first bytes are those of the sector that is never written. -/
theorem image_first
    (h₁ : s₁.drive.sectors = swappedOut s.mem s.drive.sectors b a imageSectors)
    (h₂ : ∀ σ, b ≤ σ → σ < b + imageSectors → s₂.drive.sectors σ = s₁.drive.sectors σ)
    (h₃ : s₃.mem = swappedIn s₂.mem s₂.drive.sectors b a₂ imageSectors) {i : ℕ} (hi : i < 512) :
    s₃.mem (pageAddr a₂ + i) = sectorByte (s.drive.sectors (b + 128)) i := by
  have hread : swappedIn s₂.mem s₂.drive.sectors b a₂ imageSectors (pageAddr a₂ + i) =
      sectorByte (s₂.drive.sectors (b + 128)) i := by
    have h := @swappedIn_wrapped s₂.mem s₂.drive.sectors b a₂ 0 i (by decide) hi
    rwa [Nat.mul_zero, Nat.zero_add, Nat.zero_add] at h
  rw [h₃, hread, h₂ _ (by omega) (by simp only [imageSectors]; omega), h₁,
    swappedOut_skipped (by decide)]

omit [DecidableEq ρ] in
/-- When the two transfers are the identity on the image. -/
theorem roundTrip_iff
    (hm₁ : s₁.mem = s.mem)
    (h₁ : s₁.drive.sectors = swappedOut s.mem s.drive.sectors b a imageSectors)
    (h₂ : ∀ σ, b ≤ σ → σ < b + imageSectors → s₂.drive.sectors σ = s₁.drive.sectors σ)
    (h₃ : s₃.mem = swappedIn s₂.mem s₂.drive.sectors b a₂ imageSectors)
    (hs₃ : s₃.drive.sectors = s₂.drive.sectors) :
    RoundTrip b a a₂ s s₁ s₂ s₃ ↔ AlreadyThere b a a₂ s s₂ := by
  -- the bytes past the segment are not transferred
  have hrest : ∀ i, 65536 ≤ i → s₃.mem (pageAddr a₂ + i) = s₂.mem (pageAddr a₂ + i) := by
    intro i hi
    rw [h₃, swappedIn_outside (by omega)]
  constructor
  · intro h
    refine ⟨fun i hi => ?_, fun i hi hlt => ?_⟩
    · rw [← image_first h₁ h₂ h₃ hi]
      exact h.image i (by simp only [imageBytes]; omega)
    · rw [← hrest i hi]
      exact h.image i hlt
  · intro h
    refine ⟨fun i hi => ?_, fun σ hσ => ?_, fun σ _ => ?_, fun x => ?_, fun x hx => ?_⟩
    · -- the first sector, the others of the segment, and what lies behind it
      by_cases hfirst : i < 512
      · rw [image_first h₁ h₂ h₃ hfirst]
        exact h.first i hfirst
      · by_cases hseg : i < 65536
        · have hi' : i = 512 * (i / 512) + i % 512 := by omega
          rw [hi']
          exact image_middle h₁ h₂ h₃ (by omega) (by omega) (by omega)
        · rw [hrest i (by omega)]
          exact h.rest i (by omega) hi
    · rw [h₁, swappedOut_outside hσ]
    · rw [hs₃]
    · rw [hm₁]
    · rw [h₃, swappedIn_outside]
      simp only [imageBytes] at hx
      omega

end

/-! ## The round trip -/

/-- Swapping out and in returns the image exactly if the bytes that the transfers leave out were in
place already: the first 512 bytes on sector `b + 128`, and the last 8192 bytes in the new core. -/
theorem swap_roundTrip_iff (swbuf : ρ) {b a a₂ n : ℕ} {s : Rk ρ} (hs : Idle s)
    (hb : b + imageSectors ≤ NRKBLK) (ha : a + PSIZE ≤ 256) (ha₂ : a₂ + PSIZE ≤ 256)
    (hn : imageSectors ≤ n) :
    ∃ s₁, swap swbuf b a PSIZE false n s = some (false, s₁) ∧
      ∀ s₂, Idle s₂ →
        (∀ σ, b ≤ σ → σ < b + imageSectors → s₂.drive.sectors σ = s₁.drive.sectors σ) →
        ∃ s₃, swap swbuf b a₂ PSIZE true n s₂ = some (false, s₃) ∧
          (RoundTrip b a a₂ s s₁ s₂ s₃ ↔ AlreadyThere b a a₂ s s₂) := by
  simp only [PSIZE] at ha ha₂
  obtain ⟨s₁, hout, -, hm₁, h₁⟩ := swap_out swbuf hs hb (by omega : a < 256) hn
  refine ⟨s₁, hout, fun s₂ hs₂ h₂ => ?_⟩
  obtain ⟨s₃, hin, -, h₃, hs₃⟩ := swap_in swbuf hs₂ hb (by omega : a₂ < 256) hn
  exact ⟨s₃, hin, roundTrip_iff hm₁ h₁ h₂ h₃ hs₃⟩

/-- The driver at rest with an empty disk and `mem` in core. -/
def atRest (mem : Core) : Rk Unit where
  mem := mem
  drive :=
    { sectors := fun _ _ => 0, count := 0, lba0 := 0, lba1 := 0, lba2 := 0, head := 0
      xfer := .idle, irq := false }
  io_sector := 0
  io_count := 0
  io_cmd := 0
  io_buf := 0
  io_seg := 0
  buf := fun _ => ⟨{}, 0, 0, 0, 0, 0⟩
  d_active := 0
  d_errcnt := 0
  d_actf := []

theorem idle_atRest (mem : Core) : Idle (atRest mem) :=
  ⟨rfl, rfl, rfl⟩

/-- A zero image from page 32 to page 50 by block 4000. -/
theorem swap_roundTrip_iff_zero :
    ∃ s₁ s₂ s₃ : Rk Unit, swap () 4000 32 PSIZE false 144 (atRest fun _ => 0) = some (false, s₁) ∧
      swap () 4000 50 PSIZE true 144 s₂ = some (false, s₃) ∧
      (RoundTrip 4000 32 50 (atRest fun _ => 0) s₁ s₂ s₃ ↔
        AlreadyThere 4000 32 50 (atRest fun _ => 0) s₂) := by
  obtain ⟨s₁, hout, h⟩ := @swap_roundTrip_iff Unit _ () 4000 32 50 144 _
    (idle_atRest fun _ => 0) (by decide) (by decide) (by decide) (by decide)
  obtain ⟨s₃, hin, hiff⟩ := h
    { atRest (fun _ => 0) with drive := { s₁.drive with irq := false } } ⟨rfl, rfl, rfl⟩
    fun _ _ _ => rfl
  exact ⟨s₁, _, s₃, hout, hin, hiff⟩

/-- An image whose first byte is 1 does not come back from an empty disk. -/
theorem not_swap_roundTrip :
    ∃ s₁ s₂ s₃ : Rk Unit, swap () 4000 32 PSIZE false 144 (atRest fun _ => 1) = some (false, s₁) ∧
      Idle s₂ ∧ s₂.drive.sectors = s₁.drive.sectors ∧
      swap () 4000 50 PSIZE true 144 s₂ = some (false, s₃) ∧
      ¬ RoundTrip 4000 32 50 (atRest fun _ => 1) s₁ s₂ s₃ := by
  obtain ⟨s₁, hout, hidle, hm₁, h₁⟩ := swap_out () (b := 4000) (a := 32) (n := 144)
    (idle_atRest fun _ => 1) (by decide) (by decide) (by decide)
  obtain ⟨s₃, hin, -, h₃, hs₃⟩ := swap_in () (b := 4000) (a := 50) (n := 144) hidle
    (by decide) (by decide) (by decide)
  refine ⟨s₁, s₁, s₃, hout, hidle, rfl, hin, fun h => ?_⟩
  have hfirst := ((roundTrip_iff hm₁ h₁ (fun _ _ _ => rfl) h₃ hs₃).mp h).first 0 (by decide)
  revert hfirst
  decide

end UnixV6
