import UnixV6.Dmr.Ide
import UnixV6.H.Param

/-!
# Swap transfers (`dmr/bio.c`)

`swap` moves `count` pages between core and the swap area through `swbuf`.
-/

open Function

namespace UnixV6

variable {ρ : Type} [DecidableEq ρ]

/-- The start of `swap`, once `swbuf` is free. -/
def swapStart (swbuf : ρ) (blkno coreaddr count : ℕ) (rdflg : Bool) (s : Rk ρ) : Rk ρ :=
  rkstrategy swbuf { s with
    buf := update s.buf swbuf
      { b_flags := { b_busy := true, b_phys := true, b_read := rdflg }
        b_dev := 0
        b_wcount := count
        b_blkno := blkno
        b_addr := 0
        b_xmem := coreaddr } }

/-- The sleep of `swap` for `B_DONE`, over at most `n` disk interrupts. -/
def swapWait (swbuf : ρ) : ℕ → Rk ρ → Option (Rk ρ)
  | 0, s => if (s.buf swbuf).b_flags.b_done then some s else none
  | n + 1, s =>
    if (s.buf swbuf).b_flags.b_done then some s else takeIntr s >>= swapWait swbuf n

/-- Swap I/O, from the time that `swbuf` is free; returns `B_ERROR`. -/
def swap (swbuf : ρ) (blkno coreaddr count : ℕ) (rdflg : Bool) (n : ℕ) (s : Rk ρ) :
    Option (Bool × Rk ρ) := do
  let s ← swapWait swbuf n (swapStart swbuf blkno coreaddr count rdflg s)
  let s := s.setFlags swbuf fun fl => { fl with b_busy := false, b_wanted := false }
  some ((s.buf swbuf).b_flags.b_error, s)

/-! ## One sector -/

/-- The low and the high byte of word `i / 2`: byte `i` of a sector. -/
def sectorByte (w : ℕ → Word) (i : ℕ) : Byte :=
  if i % 2 = 0 then lobyte (w (i / 2)) else hibyte (w (i / 2))

/-- The sector that the driver writes from `data` in `seg`. -/
def sectorOf (mem : Core) (data seg : ℕ) (i : ℕ) : Word :=
  if i < 256 then rdword mem ((data + 2 * i) % 65536) seg else 0

/-- Core after the driver has read the words `w` to `data` in `seg`. -/
def coreWith (mem : Core) (data seg : ℕ) (w : ℕ → Word) (n : ℕ) : Core := fun x =>
  if linear data seg ≤ x ∧ x < linear data seg + 2 * n then sectorByte w (x - linear data seg)
  else mem x

/-- The low byte of a word is the first of its two. -/
@[simp]
theorem lobyte_rdword (mem : Core) (off seg : ℕ) :
    lobyte (rdword mem off seg) = mem (linear off seg) :=
  BitVec.extractLsb'_append_eq_right

/-- The high byte is the second. -/
@[simp]
theorem hibyte_rdword (mem : Core) (off seg : ℕ) :
    hibyte (rdword mem off seg) = mem (linear off seg + 1) :=
  BitVec.extractLsb'_append_eq_left

/-- The bytes of a sector are the bytes of core it was written from. -/
theorem sectorByte_sectorOf {mem : Core} {data seg i : ℕ} (hdata : data + 512 ≤ 65536)
    (hi : i < 512) : sectorByte (sectorOf mem data seg) i = mem (linear data seg + i) := by
  have hword : sectorOf mem data seg (i / 2) = rdword mem (data + 2 * (i / 2)) seg := by
    rw [sectorOf, if_pos (by omega), Nat.mod_eq_of_lt (by omega)]
  unfold sectorByte
  rw [hword, lobyte_rdword, hibyte_rdword, linear, linear]
  split <;> congr 1 <;> omega

/-- A sector's worth of words is on its way. -/
theorem sendWords_eq {mem : Core} {data seg n : ℕ} {d : Drive} (hn : n < 256)
    (hd : d.xfer = .fromHost (fun _ => 0) 0) :
    sendWords mem data seg n d = { d with
      xfer := .fromHost (fun i => if i < n then rdword mem ((data + 2 * i) % 65536) seg else 0)
        n } := by
  induction n with
  | zero =>
    cases d
    simpa [sendWords] using hd
  | succ n ih =>
    rw [sendWords, ih (by omega)]
    have hbuf : update (fun i => if i < n then rdword mem ((data + 2 * i) % 65536) seg else 0) n
        (rdword mem ((data + 2 * n) % 65536) seg) =
        fun i => if i < n + 1 then rdword mem ((data + 2 * i) % 65536) seg else 0 := by
      funext i
      by_cases hi : i = n
      · simp [hi]
      · have : i < n ↔ i < n + 1 := by omega
        simp [hi, this]
    simp only [outport]
    rw [if_neg (by omega), hbuf]

/-- The last word stores the sector. -/
theorem sendWords_sector {mem : Core} {data seg : ℕ} {d : Drive}
    (hd : d.xfer = .fromHost (fun _ => 0) 0) :
    sendWords mem data seg 256 d = { d with
      sectors := update d.sectors d.lba (sectorOf mem data seg), xfer := .idle, irq := true } := by
  rw [sendWords, sendWords_eq (by decide) hd]
  have hbuf : update (fun i => if i < 255 then rdword mem ((data + 2 * i) % 65536) seg else 0) 255
      (rdword mem ((data + 2 * 255) % 65536) seg) = sectorOf mem data seg := by
    funext i
    by_cases hi : i = 255
    · simp [hi, sectorOf]
    · have : i < 255 ↔ i < 256 := by omega
      simp [hi, sectorOf, this]
  simp only [outport]
  rw [if_pos (by decide), hbuf]
  rfl

/-- The registers that `idestart` loads select the sector. -/
theorem lba_eq {sector : ℕ} (h : sector < 65536) {d : Drive}
    (h0 : d.lba0 = BitVec.ofNat 8 sector) (h1 : d.lba1 = BitVec.ofNat 8 (sector / 256))
    (h2 : d.lba2 = 0) : d.lba = sector := by
  rw [Drive.lba, h0, h1, h2, BitVec.toNat_ofNat, BitVec.toNat_ofNat]
  simp
  omega

/-- `idestart` with data writes the sector. -/
theorem idestart_write {sector data : ℕ} (seg : ℕ) (s : Ide) (hsector : sector < 65536)
    (hdata : data ≠ 0) :
    ∃ d : Drive, idestart sector data seg s = { s with drive := d } ∧ d.irq = true ∧
      d.sectors = update s.drive.sectors sector (sectorOf s.mem data seg) := by
  unfold idestart
  dsimp only
  rw [if_pos hdata, sendWords_sector rfl]
  refine ⟨_, rfl, rfl, ?_⟩
  rw [lba_eq hsector rfl rfl rfl]
  rfl

/-- `idestart` without data reads the sector. -/
theorem idestart_read {sector data : ℕ} (seg : ℕ) (s : Ide) (hsector : sector < 65536)
    (hdata : data = 0) :
    ∃ d : Drive, idestart sector data seg s = { s with drive := d } ∧ d.irq = true ∧
      d.sectors = s.drive.sectors ∧ d.xfer = .toHost (s.drive.sectors sector) 0 := by
  unfold idestart
  dsimp only
  rw [if_neg (not_not.mpr hdata)]
  refine ⟨_, rfl, rfl, rfl, ?_⟩
  simp only [outportb]
  rw [if_pos trivial, lba_eq hsector rfl rfl rfl]

/-- The words fetched so far are in core. -/
theorem recvWords_eq {w : ℕ → Word} {n : ℕ} {s : Ide} (hd : s.drive.xfer = .toHost w 0)
    (hbuf : s.io_buf + 512 ≤ 65536) (hn : n ≤ 256) :
    recvWords n s = { s with
      mem := coreWith s.mem s.io_buf s.io_seg w n
      drive := { s.drive with xfer := .toHost w n } } := by
  induction n with
  | zero =>
    have hmem : coreWith s.mem s.io_buf s.io_seg w 0 = s.mem := by
      funext x
      rw [coreWith, if_neg (by omega)]
    rw [recvWords, hmem, ← hd]
  | succ n ih =>
    rw [recvWords, ih (by omega)]
    simp only [inport]
    rw [Nat.mod_eq_of_lt (by omega)]
    congr 1
    funext x
    have hlin : linear (s.io_buf + 2 * n) s.io_seg = linear s.io_buf s.io_seg + 2 * n := by
      rw [linear, linear]
      omega
    -- `x` is the high byte of word `n`, its low byte, or neither
    by_cases hhi : x = linear s.io_buf s.io_seg + 2 * n + 1
    · subst hhi
      rw [wrword, hlin, update_self, coreWith, if_pos (by omega), sectorByte, if_neg (by omega)]
      congr 2
      omega
    · by_cases hlo : x = linear s.io_buf s.io_seg + 2 * n
      · subst hlo
        rw [wrword, hlin, update_of_ne (by omega), update_self, coreWith, if_pos (by omega),
          sectorByte, if_pos (by omega)]
        congr 2
        omega
      · rw [wrword, hlin, update_of_ne hhi, update_of_ne hlo, coreWith, coreWith]
        split <;> split <;> first | rfl | omega

/-! ## A transfer -/

/-- The first byte of core page `a`: `a * PAGESIZ`. -/
def pageAddr (a : ℕ) : ℕ := a * 4096

/-- A page as a segment. -/
theorem linear_page (off a : ℕ) : linear off (a * 256) = pageAddr a + off := by
  rw [linear, pageAddr]
  ring

/-- Sectors of a process image: `p_size * (PAGESIZ/512)`. -/
def imageSectors : ℕ := 144

/-- The disk when the first `k` sectors of the image at page `a` have been dealt with: `idestart`
takes a buffer at offset 0 for a read, so those are not written. -/
def swappedOut (mem : Core) (disk : ℕ → ℕ → Word) (b a k : ℕ) : ℕ → ℕ → Word := fun σ =>
  if b ≤ σ ∧ σ < b + k ∧ 512 * (σ - b) % 65536 ≠ 0 then
    sectorOf mem (512 * (σ - b) % 65536) (a * 256)
  else disk σ

/-- Core when the first `k` sectors from `b` on have been read to page `a`: from the 129th on they
go to the start of the segment again. -/
def swappedIn (mem : Core) (disk : ℕ → ℕ → Word) (b a k : ℕ) : Core := fun x =>
  if pageAddr a ≤ x ∧ x < pageAddr a + 65536 then
    if (x - pageAddr a) / 512 + 128 < k then
      sectorByte (disk (b + ((x - pageAddr a) / 512 + 128))) ((x - pageAddr a) % 512)
    else if (x - pageAddr a) / 512 < k then
      sectorByte (disk (b + (x - pageAddr a) / 512)) ((x - pageAddr a) % 512)
    else mem x
  else mem x

/-- One more sector of the image is out, unless the count has wrapped to zero. -/
theorem swappedOut_succ {mem : Core} {disk : ℕ → ℕ → Word} {b a k : ℕ} :
    swappedOut mem disk b a (k + 1) =
      if 512 * k % 65536 ≠ 0 then
        update (swappedOut mem disk b a k) (b + k) (sectorOf mem (512 * k % 65536) (a * 256))
      else swappedOut mem disk b a k := by
  funext σ
  by_cases hσ : σ = b + k
  · subst hσ
    have hsub : b + k - b = k := by omega
    by_cases hk : 512 * k % 65536 = 0
    · simp [swappedOut, hsub, hk]
    · simp [swappedOut, hsub, hk]
  · -- another sector is as it was
    have hlt : σ < b + (k + 1) ↔ σ < b + k := by omega
    split
    · rw [update_of_ne hσ, swappedOut, swappedOut]
      simp only [hlt]
    · rw [swappedOut, swappedOut]
      simp only [hlt]

/-- One more sector of the image is in. -/
theorem swappedIn_succ {mem : Core} {disk : ℕ → ℕ → Word} {b a k : ℕ} (hk : k < 256) :
    coreWith (swappedIn mem disk b a k) (512 * k % 65536) (a * 256) (disk (b + k)) 256 =
      swappedIn mem disk b a (k + 1) := by
  funext x
  have hoff : 512 * k % 65536 = 512 * (k % 128) := by omega
  rw [coreWith, linear_page, hoff]
  by_cases hin : pageAddr a + 512 * (k % 128) ≤ x ∧ x < pageAddr a + 512 * (k % 128) + 2 * 256
  · have hseg : pageAddr a ≤ x ∧ x < pageAddr a + 65536 := by omega
    have hmod : x - (pageAddr a + 512 * (k % 128)) = (x - pageAddr a) % 512 := by omega
    rw [if_pos hin, swappedIn, if_pos hseg, hmod]
    -- sector `k` is the last one read to this place
    by_cases hwrap : 128 ≤ k
    · have hsec : (x - pageAddr a) / 512 + 128 = k := by omega
      rw [if_pos (by omega), hsec]
    · have hsec : (x - pageAddr a) / 512 = k := by omega
      rw [if_neg (by omega), if_pos (by omega), hsec]
  · rw [if_neg hin, swappedIn, swappedIn]
    by_cases hseg : pageAddr a ≤ x ∧ x < pageAddr a + 65536
    · have h1 : (x - pageAddr a) / 512 + 128 < k + 1 ↔ (x - pageAddr a) / 512 + 128 < k := by omega
      by_cases hwrap : (x - pageAddr a) / 512 + 128 < k
      · rw [if_pos hseg, if_pos hseg, if_pos hwrap, if_pos (h1.mpr hwrap)]
      · have h2 : (x - pageAddr a) / 512 < k + 1 ↔ (x - pageAddr a) / 512 < k := by omega
        rw [if_pos hseg, if_pos hseg, if_neg hwrap, if_neg (mt h1.mp hwrap)]
        simp only [h2]
    · rw [if_neg hseg, if_neg hseg]

/-- `swbuf` is being transferred, and the interrupt for sector `k` is pending. -/
structure Transfer (swbuf : ρ) (b a : ℕ) (rdflg : Bool) (k : ℕ) (s : Rk ρ) : Prop where
  io_sector : s.io_sector = b + k
  io_count : s.io_count = imageSectors - k
  io_cmd : s.io_cmd = if rdflg then 1 else 0
  io_buf : s.io_buf = 512 * k % 65536
  io_seg : s.io_seg = a * 256
  irq : s.drive.irq = true
  d_active : s.d_active ≠ 0
  d_actf : s.d_actf = [swbuf]
  b_flags : (s.buf swbuf).b_flags = { b_busy := true, b_phys := true, b_read := rdflg }

/-- The transfer is over. -/
structure Transferred (swbuf : ρ) (rdflg : Bool) (s : Rk ρ) : Prop where
  irq : s.drive.irq = false
  d_active : s.d_active = 0
  d_actf : s.d_actf = []
  b_flags : (s.buf swbuf).b_flags =
    { b_busy := true, b_phys := true, b_read := rdflg, b_done := true }

section

variable {swbuf : ρ} {b a k : ℕ} {rdflg : Bool} {s : Rk ρ} {i : Ide}

/-- While there is more to transfer, `ideintr` starts the next sector. -/
theorem Transfer.takeIntr_next (h : Transfer swbuf b a rdflg k s) (hk : k + 1 < imageSectors)
    (hi : ideintrData { s.toIde with drive := { s.drive with irq := false } } = i)
    (hcount : i.io_count = s.io_count - 1) :
    takeIntr s = some { s with
      toIde := idestart i.io_sector (if i.io_cmd = 0 then i.io_buf else 0) i.io_seg i } := by
  have hpos : ¬ i.io_count ≤ 0 := by
    rw [hcount, h.io_count]
    omega
  unfold takeIntr ideintr
  dsimp only
  rw [if_pos h.irq, hi, if_neg hpos]

/-- With nothing more to transfer it finishes the request. -/
theorem Transfer.takeIntr_last (h : Transfer swbuf b a rdflg k s) (hk : k + 1 = imageSectors)
    (hi : ideintrData { s.toIde with drive := { s.drive with irq := false } } = i)
    (hcount : i.io_count = s.io_count - 1) (hirq : i.drive.irq = false) :
    ∃ s', takeIntr s = some s' ∧ s'.toIde = i ∧ Transferred swbuf rdflg s' := by
  have hle : i.io_count ≤ 0 := by
    rw [hcount, h.io_count]
    omega
  unfold takeIntr ideintr rkintr
  dsimp only
  rw [if_pos h.irq, hi, if_pos hle, if_neg h.d_active, h.d_actf]
  refine ⟨_, rfl, ?_⟩
  simp only [iodone, rkstart, Rk.setFlags, h.b_flags, update_self, Bool.false_eq_true, if_false,
    update_idem]
  exact ⟨trivial, hirq, rfl, rfl, by simp⟩

/-- The interrupts from sector `k` on, over which `Inv` is kept up to the last and `Post` follows
from it. -/
theorem swapWait_run {Inv : ℕ → Rk ρ → Prop} {Post : Rk ρ → Prop}
    (hnot : ∀ k s, Inv k s → (s.buf swbuf).b_flags.b_done = false)
    (hnext : ∀ k s, Inv k s → k + 1 < imageSectors → ∃ s', takeIntr s = some s' ∧ Inv (k + 1) s')
    (hlast : ∀ k s, Inv k s → k + 1 = imageSectors →
      ∃ s', takeIntr s = some s' ∧ Post s' ∧ (s'.buf swbuf).b_flags.b_done = true)
    {n k : ℕ} {s : Rk ρ} (hs : Inv k s) (hk : k < imageSectors) (hn : imageSectors ≤ k + n) :
    ∃ s', swapWait swbuf n s = some s' ∧ Post s' := by
  induction n generalizing k s with
  | zero => omega
  | succ n ih =>
    unfold swapWait
    rw [hnot k s hs]
    by_cases hlt : k + 1 < imageSectors
    · obtain ⟨s', hs', hinv⟩ := hnext k s hs hlt
      obtain ⟨s'', hs'', hpost⟩ := ih hinv hlt (by omega)
      exact ⟨s'', by simp [hs', hs''], hpost⟩
    · obtain ⟨s', hs', hpost, hdone⟩ := hlast k s hs (by omega)
      refine ⟨s', ?_, hpost⟩
      -- `swap` sees `B_DONE` when it wakes up
      have hwait : swapWait swbuf n s' = some s' := by
        cases n <;> simp [swapWait, hdone]
      simp [hs', hwait]

/-! ### Out -/

/-- Up to sector `k` the image at page `a` has been written. -/
structure Writing (swbuf : ρ) (b a : ℕ) (s₀ : Rk ρ) (k : ℕ) (s : Rk ρ) : Prop
    extends Transfer swbuf b a false k s where
  mem : s.mem = s₀.mem
  sectors : s.drive.sectors = swappedOut s₀.mem s₀.drive.sectors b a (k + 1)

/-- The request for the next sector, for a buffer that may be at offset 0. -/
theorem idestart_out {sector : ℕ} (data a : ℕ) (i : Ide) (hsector : sector < 65536) :
    ∃ d : Drive, idestart sector data (a * 256) i = { i with drive := d } ∧ d.irq = true ∧
      d.sectors = if data ≠ 0 then
          update i.drive.sectors sector (sectorOf i.mem data (a * 256))
        else i.drive.sectors := by
  by_cases hdata : data = 0
  · obtain ⟨d, hd, hirq, hsec, -⟩ := idestart_read (a * 256) i hsector hdata
    exact ⟨d, hd, hirq, by rw [hsec, if_neg (not_not.mpr hdata)]⟩
  · obtain ⟨d, hd, hirq, hsec⟩ := idestart_write (a * 256) i hsector hdata
    exact ⟨d, hd, hirq, by rw [hsec, if_pos hdata]⟩

omit [DecidableEq ρ] in
/-- What `ideintr` does before it starts the next sector, in a transfer out. -/
theorem Writing.ideintrData {s₀ : Rk ρ} (h : Writing swbuf b a s₀ k s)
    (hb : b + imageSectors ≤ NRKBLK) (hk : k < imageSectors) :
    ∃ i, UnixV6.ideintrData { s.toIde with drive := { s.drive with irq := false } } = i ∧
      i.mem = s₀.mem ∧ i.drive.irq = false ∧
      i.drive.sectors = swappedOut s₀.mem s₀.drive.sectors b a (k + 1) ∧
      i.io_sector = b + (k + 1) ∧ i.io_count = s.io_count - 1 ∧ i.io_cmd = 0 ∧
      i.io_buf = 512 * (k + 1) % 65536 ∧ i.io_seg = a * 256 := by
  have hcmd : s.io_cmd = 0 := h.io_cmd
  refine ⟨_, rfl, ?_⟩
  simp only [UnixV6.ideintrData, hcmd, ne_eq, not_true_eq_false, if_false]
  refine ⟨h.mem, trivial, h.sectors, ?_, trivial, trivial, ?_, h.io_seg⟩
  · rw [h.io_sector]
    simp only [imageSectors, NRKBLK] at hb hk
    omega
  · rw [h.io_buf]
    omega

/-- An interrupt in the middle of a swap-out sends the next sector. -/
theorem Writing.next {s₀ : Rk ρ} (h : Writing swbuf b a s₀ k s) (hb : b + imageSectors ≤ NRKBLK)
    (hk : k + 1 < imageSectors) : ∃ s', takeIntr s = some s' ∧ Writing swbuf b a s₀ (k + 1) s' := by
  obtain ⟨i, hi, hmem, -, hsec, hsector, hcount, hcmd, hbuf, hseg⟩ := h.ideintrData hb (by omega)
  have hgo := h.takeIntr_next hk hi hcount
  rw [hsector, hseg, if_pos hcmd, hbuf] at hgo
  have hlt : b + (k + 1) < 65536 := by
    simp only [imageSectors, NRKBLK] at hb hk
    omega
  obtain ⟨d, hd, hirq, hds⟩ := idestart_out (512 * (k + 1) % 65536) a i hlt
  rw [hd] at hgo
  refine ⟨_, hgo, ⟨⟨hsector, ?_, hcmd, hbuf, hseg, hirq, h.d_active, h.d_actf, h.b_flags⟩, hmem, ?_⟩⟩
  · show i.io_count = _
    rw [hcount, h.io_count]
    push_cast
    ring
  · show d.sectors = _
    rw [hds, hmem, hsec, swappedOut_succ (k := k + 1)]

/-- The last interrupt completes the swap-out. -/
theorem Writing.last {s₀ : Rk ρ} (h : Writing swbuf b a s₀ k s) (hb : b + imageSectors ≤ NRKBLK)
    (hk : k + 1 = imageSectors) : ∃ s', takeIntr s = some s' ∧
      (Transferred swbuf false s' ∧ s'.mem = s₀.mem ∧
        s'.drive.sectors = swappedOut s₀.mem s₀.drive.sectors b a imageSectors) := by
  obtain ⟨i, hi, hmem, hirq, hsec, -, hcount, -⟩ := h.ideintrData hb (by omega)
  obtain ⟨s', hs', rfl, hdone⟩ := h.takeIntr_last hk hi hcount hirq
  exact ⟨s', hs', hdone, hmem, by rw [hsec, hk]⟩

/-! ### In -/

/-- Up to sector `k` the image has been read to page `a`, and the next sector is ready. -/
structure Reading (swbuf : ρ) (b a : ℕ) (s₀ : Rk ρ) (k : ℕ) (s : Rk ρ) : Prop
    extends Transfer swbuf b a true k s where
  mem : s.mem = swappedIn s₀.mem s₀.drive.sectors b a k
  sectors : s.drive.sectors = s₀.drive.sectors
  xfer : s.drive.xfer = .toHost (s₀.drive.sectors (b + k)) 0

omit [DecidableEq ρ] in
/-- A read interrupt moves the drive's sector into core. -/
theorem Reading.ideintrData {s₀ : Rk ρ} (h : Reading swbuf b a s₀ k s)
    (hb : b + imageSectors ≤ NRKBLK) (hk : k < imageSectors) :
    ∃ i, UnixV6.ideintrData { s.toIde with drive := { s.drive with irq := false } } = i ∧
      i.mem = swappedIn s₀.mem s₀.drive.sectors b a (k + 1) ∧ i.drive.irq = false ∧
      i.drive.sectors = s₀.drive.sectors ∧
      i.io_sector = b + (k + 1) ∧ i.io_count = s.io_count - 1 ∧ i.io_cmd = 1 ∧
      i.io_buf = 512 * (k + 1) % 65536 ∧ i.io_seg = a * 256 := by
  have hcmd : s.io_cmd = 1 := h.io_cmd
  -- a sector does not cross the end of the segment
  have hbuf : s.io_buf + 512 ≤ 65536 := by
    rw [h.io_buf]
    omega
  refine ⟨_, rfl, ?_⟩
  unfold UnixV6.ideintrData
  dsimp only
  rw [hcmd, if_pos one_ne_zero, recvWords_eq (by exact h.xfer) (by exact hbuf) le_rfl]
  refine ⟨?_, rfl, h.sectors, ?_, rfl, rfl, ?_, h.io_seg⟩
  · show coreWith s.mem s.io_buf s.io_seg _ 256 = _
    rw [h.mem, h.io_buf, h.io_seg, swappedIn_succ (by simp only [imageSectors] at hk; omega)]
  · show (s.io_sector + 1) % 65536 = _
    rw [h.io_sector]
    simp only [imageSectors, NRKBLK] at hb hk
    omega
  · show (s.io_buf + 512) % 65536 = _
    rw [h.io_buf]
    omega

/-- An interrupt in the middle of a swap-in asks for the next sector. -/
theorem Reading.next {s₀ : Rk ρ} (h : Reading swbuf b a s₀ k s) (hb : b + imageSectors ≤ NRKBLK)
    (hk : k + 1 < imageSectors) : ∃ s', takeIntr s = some s' ∧ Reading swbuf b a s₀ (k + 1) s' := by
  obtain ⟨i, hi, hmem, -, hsec, hsector, hcount, hcmd, hbuf, hseg⟩ := h.ideintrData hb (by omega)
  have hgo := h.takeIntr_next hk hi hcount
  rw [hsector, hseg, if_neg (by rw [hcmd]; decide)] at hgo
  have hlt : b + (k + 1) < 65536 := by
    simp only [imageSectors, NRKBLK] at hb hk
    omega
  obtain ⟨d, hd, hirq, hds, hxfer⟩ := idestart_read (a * 256) i hlt rfl
  rw [hd] at hgo
  refine ⟨_, hgo, ⟨⟨hsector, ?_, hcmd, hbuf, hseg, hirq, h.d_active, h.d_actf, h.b_flags⟩, hmem,
    hds.trans hsec, ?_⟩⟩
  · show i.io_count = _
    rw [hcount, h.io_count]
    push_cast
    ring
  · show d.xfer = _
    rw [hxfer, hsec]

/-- The last interrupt completes the swap-in. -/
theorem Reading.last {s₀ : Rk ρ} (h : Reading swbuf b a s₀ k s) (hb : b + imageSectors ≤ NRKBLK)
    (hk : k + 1 = imageSectors) : ∃ s', takeIntr s = some s' ∧
      (Transferred swbuf true s' ∧
        s'.mem = swappedIn s₀.mem s₀.drive.sectors b a imageSectors ∧
        s'.drive.sectors = s₀.drive.sectors) := by
  obtain ⟨i, hi, hmem, hirq, hsec, -, hcount, -⟩ := h.ideintrData hb (by omega)
  obtain ⟨s', hs', rfl, hdone⟩ := h.takeIntr_last hk hi hcount hirq
  exact ⟨s', hs', hdone, by rw [hmem, hk], hsec⟩

end

/-! ## The whole of `swap` -/

/-- The drive has nothing to do. -/
structure Idle (s : Rk ρ) : Prop where
  irq : s.drive.irq = false
  d_active : s.d_active = 0
  d_actf : s.d_actf = []

section

variable (swbuf : ρ) {b a n : ℕ} {s : Rk ρ}

/-- `swap` starts the request for the first sector, in either direction a read. -/
theorem swapStart_eq (hs : Idle s) (hb : b + imageSectors ≤ NRKBLK) (ha : a < 256)
    (rdflg : Bool) :
    Transfer swbuf b a rdflg 0 (swapStart swbuf b a PSIZE rdflg s) ∧
      (swapStart swbuf b a PSIZE rdflg s).mem = s.mem ∧
      (swapStart swbuf b a PSIZE rdflg s).drive.sectors = s.drive.sectors ∧
      (swapStart swbuf b a PSIZE rdflg s).drive.xfer = .toHost (s.drive.sectors b) 0 := by
  have hlt : b < 65536 := by
    simp only [imageSectors, NRKBLK] at hb
    omega
  have hsector : (b + NRKBLK * minor 0) % 65536 = b := by
    simp only [minor]
    omega
  have hseg : a * 256 % 65536 = a * 256 := by omega
  have hblk : ¬ NRKBLK * 1 ≤ b := by
    simp only [imageSectors] at hb
    omega
  have hpsize : 8 * PSIZE % 65536 = 144 := by decide
  have hminor : minor 0 ≤ 7 := by decide
  -- whatever the direction, the drive is told to read
  obtain ⟨d, hd, hirq, hsec, hxfer⟩ := idestart_read (a * 256)
    { mem := s.mem, drive := s.drive, io_sector := b, io_count := 144, io_buf := 0
      io_seg := a * 256, io_cmd := if rdflg then 1 else 0 } hlt (Eq.refl 0)
  have hstart : swapStart swbuf b a PSIZE rdflg s =
      { mem := s.mem, drive := d, io_sector := b, io_count := 144, io_buf := 0
        io_seg := a * 256, io_cmd := if rdflg then 1 else 0
        buf := update s.buf swbuf
          { b_flags := { b_busy := true, b_phys := true, b_read := rdflg }
            b_dev := 0
            b_wcount := PSIZE
            b_blkno := b
            b_addr := 0
            b_xmem := a }
        d_active := 1
        d_errcnt := s.d_errcnt
        d_actf := [swbuf] } := by
    simp only [swapStart, rkstrategy, update_self, if_pos hminor, if_neg hblk, hs.d_active,
      hs.d_actf, rkstart, List.nil_append, devstart, ideio, hsector, hseg, hpsize, if_true,
      ite_self]
    rw [if_pos (by decide), Nat.cast_ofNat, hd]
  rw [hstart]
  exact ⟨⟨rfl, rfl, rfl, rfl, rfl, hirq, one_ne_zero, rfl,
    by simp only [update_self]⟩, rfl, hsec, hxfer⟩

/-- With enough interrupts `swap` writes the image at page `a` to the sectors from `b` on. -/
theorem swap_out (hs : Idle s) (hb : b + imageSectors ≤ NRKBLK) (ha : a < 256)
    (hn : imageSectors ≤ n) :
    ∃ s', swap swbuf b a PSIZE false n s = some (false, s') ∧ Idle s' ∧ s'.mem = s.mem ∧
      s'.drive.sectors = swappedOut s.mem s.drive.sectors b a imageSectors := by
  obtain ⟨htransfer, hmem, hsec, -⟩ := swapStart_eq swbuf hs hb ha false
  have hfirst : swappedOut s.mem s.drive.sectors b a (0 + 1) = s.drive.sectors := by
    rw [swappedOut_succ, if_neg (by decide)]
    funext σ
    rw [swappedOut, if_neg (by omega)]
  have hstart : Writing swbuf b a s 0 (swapStart swbuf b a PSIZE false s) :=
    ⟨htransfer, hmem, hsec.trans hfirst.symm⟩
  obtain ⟨s', hs', hdone, hmem', hsec'⟩ := swapWait_run (n := n)
    (fun k t (ht : Writing swbuf b a s k t) => by rw [ht.b_flags])
    (fun k t ht hk => ht.next hb hk)
    (fun k t ht hk => by
      obtain ⟨t', ht', hpost⟩ := ht.last hb hk
      exact ⟨t', ht', hpost, by rw [hpost.1.b_flags]⟩)
    hstart (by decide) (by simpa using hn)
  refine ⟨_, by rw [swap, hs']; simp [Rk.setFlags, hdone.b_flags]; rfl, ?_⟩
  exact ⟨⟨hdone.irq, hdone.d_active, hdone.d_actf⟩, hmem', hsec'⟩

/-- With enough interrupts `swap` reads the sectors from `b` on to page `a`. -/
theorem swap_in (hs : Idle s) (hb : b + imageSectors ≤ NRKBLK) (ha : a < 256)
    (hn : imageSectors ≤ n) :
    ∃ s', swap swbuf b a PSIZE true n s = some (false, s') ∧ Idle s' ∧
      s'.mem = swappedIn s.mem s.drive.sectors b a imageSectors ∧
      s'.drive.sectors = s.drive.sectors := by
  obtain ⟨htransfer, hmem, hsec, hxfer⟩ := swapStart_eq swbuf hs hb ha true
  have hfirst : swappedIn s.mem s.drive.sectors b a 0 = s.mem := by
    funext x
    simp [swappedIn]
  have hstart : Reading swbuf b a s 0 (swapStart swbuf b a PSIZE true s) :=
    ⟨htransfer, hmem.trans hfirst.symm, hsec, hxfer⟩
  obtain ⟨s', hs', hdone, hmem', hsec'⟩ := swapWait_run (n := n)
    (fun k t (ht : Reading swbuf b a s k t) => by rw [ht.b_flags])
    (fun k t ht hk => ht.next hb hk)
    (fun k t ht hk => by
      obtain ⟨t', ht', hpost⟩ := ht.last hb hk
      exact ⟨t', ht', hpost, by rw [hpost.1.b_flags]⟩)
    hstart (by decide) (by simpa using hn)
  refine ⟨_, by rw [swap, hs']; simp [Rk.setFlags, hdone.b_flags]; rfl, ?_⟩
  exact ⟨⟨hdone.irq, hdone.d_active, hdone.d_actf⟩, hmem', hsec'⟩

end

end UnixV6
