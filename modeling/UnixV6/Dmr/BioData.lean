import UnixV6.Dmr.BioCache

/-!
# What the buffers hold

`last dev blkno` is what the disk would hold if every write had been done at once. `Coherent` says
where it is to be found: on the disk, unless some buffer is still to be written (`pending`), and in
every buffer that is valid or is to be written, unless its holder has changed it (`dirty`). It is
about the blocks in use (`used`), no two of which may have the same sector.
-/

open Function

namespace UnixV6

variable {π β : Type}

/-! ## Buffers on their way to the disk -/

/-- The process is about to write the buffer. -/
def Pc.writes (x : Ptr) : Pc → Prop
  | .bwrite bp _ => bp = x
  | _ => False

/-- The process waits until the buffer has been written. -/
def Pc.awaits (x : Ptr) : Pc → Prop
  | .iowait bp (.write _) => bp = x
  | _ => False

/-- The contents of the buffer are to go to the disk: a delayed write, or one that is under way. -/
def pending (s : Bio π β) (pc : π → Pc) (x : Ptr) : Prop :=
  (s.b_flags x).b_delwri = true ∨ (∃ p, (pc p).writes x) ∨
    ((s.b_flags x).b_done = false ∧ (s.b_flags x).b_read = false ∧
      ((s.b_flags x).b_async = true ∨ ∃ p, (pc p).awaits x))

/-- No two of the blocks are sent to the same sector. -/
def SectorsApart (used : Dev → Dev → Prop) : Prop :=
  ∀ dev blkno dev' blkno' : Dev, used dev blkno → used dev' blkno' →
    Bio.rkSector dev blkno = Bio.rkSector dev' blkno' → dev = dev' ∧ blkno = blkno'

/-- Where the latest contents of the blocks are. -/
structure Coherent (used : Dev → Dev → Prop) (s : Bio π β) (last : Dev → Dev → β)
    (dirty : Ptr → Bool) (pend : Ptr → Prop) : Prop where
  valid : ∀ x : Ptr, x.IsBuf → (s.b_dev x).slt 0 = false → dirty x = false →
    (s.b_flags x).b_done = true ∨ pend x → s.data x = last (s.b_dev x) (s.b_blkno x)
  disk : ∀ dev blkno : Dev, dev.slt 0 = false → used dev blkno →
    s.disk (Bio.rkSector dev blkno) = last dev blkno ∨
      ∃ x : Ptr, x.IsBuf ∧ s.b_dev x = dev ∧ s.b_blkno x = blkno ∧ pend x
  /-- The transfer that is under way sends the block. -/
  sent : s.d_active ≠ 0 → (s.b_flags s.d_actf).b_read = false →
    s.disk (Bio.rkSector (s.b_dev s.d_actf) (s.b_blkno s.d_actf)) = s.data s.d_actf
  delwri : ∀ x : Ptr, x.IsBuf → (s.b_flags x).b_delwri = true → (s.b_flags x).b_done = true

variable {used : Dev → Dev → Prop} {s s' : Bio π β} {last : Dev → Dev → β} {dirty : Ptr → Bool} {pend pend' : Ptr → Prop}
  {ring : Ptr → List Ptr} {la q : List Ptr} {holder : Ptr → Holder π} {bp : Ptr}

/-- A change that leaves all that matters alone. -/
theorem Coherent.congr (h : Coherent used s last dirty pend)
    (hkey : s'.b_dev = s.b_dev ∧ s'.b_blkno = s.b_blkno) (hdata : s'.data = s.data ∧ s'.disk = s.disk)
    (hactive : s'.d_active = s.d_active ∧ s'.d_actf = s.d_actf)
    (hfl : ∀ x, (s'.b_flags x).b_done = (s.b_flags x).b_done ∧
      (s'.b_flags x).b_read = (s.b_flags x).b_read ∧
      (s'.b_flags x).b_delwri = (s.b_flags x).b_delwri)
    (hpend : ∀ x : Ptr, x.IsBuf → (pend' x ↔ pend x)) : Coherent used s' last dirty pend' := by
  obtain ⟨hdev, hblk⟩ := hkey
  obtain ⟨hdata, hdisk⟩ := hdata
  refine ⟨fun x hx hpos hclean hval => ?_, fun dev blkno hpos hused => ?_, fun hact hread => ?_,
    fun x hx hd => ?_⟩
  · rw [hdev] at hpos
    rw [(hfl x).1, hpend x hx] at hval
    rw [hdata, hdev, hblk]
    exact h.valid x hx hpos hclean hval
  · rw [hdisk, hdev, hblk]
    rcases h.disk dev blkno hpos hused with hd | ⟨x, hx, hkey, hkey', hp⟩
    · exact Or.inl hd
    · exact Or.inr ⟨x, hx, hkey, hkey', (hpend x hx).mpr hp⟩
  · rw [hactive.1] at hact
    rw [hactive.2, (hfl _).2.1] at hread
    rw [hactive.2, hdev, hblk, hdata, hdisk]
    exact h.sent hact hread
  · rw [(hfl x).2.2] at hd
    rw [(hfl x).1]
    exact h.delwri x hx hd

/-! ## The routines -/

/-- A change of flags that has nothing to do with the contents. -/
theorem Coherent.setFlags (h : Coherent used s last dirty pend) (f : BFlags → BFlags)
    (hf : ∀ fl, (f fl).b_done = fl.b_done ∧ (f fl).b_read = fl.b_read ∧
      (f fl).b_delwri = fl.b_delwri)
    (hpend : ∀ x : Ptr, x.IsBuf → (pend' x ↔ pend x)) :
    Coherent used (s.setFlags bp f) last dirty pend' := by
  refine h.congr ⟨rfl, rfl⟩ ⟨rfl, rfl⟩ ⟨rfl, rfl⟩ (fun x => ?_) hpend
  by_cases hx : x = bp
  · rw [hx, Bio.setFlags_self]
    exact hf _
  · rw [Bio.setFlags_of_ne hx]
    exact ⟨rfl, rfl, rfl⟩

/-- `notavail` changes none of the flags that say what a buffer contains. -/
theorem Bio.notavail_flags (bp x : Ptr) (s : Bio π β) :
    ((s.notavail bp).b_flags x).b_done = (s.b_flags x).b_done ∧
      ((s.notavail bp).b_flags x).b_read = (s.b_flags x).b_read ∧
      ((s.notavail bp).b_flags x).b_delwri = (s.b_flags x).b_delwri ∧
      ((s.notavail bp).b_flags x).b_async = (s.b_flags x).b_async := by
  unfold Bio.notavail
  by_cases hx : x = bp
  · subst hx
    rw [Bio.setFlags_self]
    exact ⟨rfl, rfl, rfl, rfl⟩
  · rw [Bio.setFlags_of_ne hx]
    exact ⟨rfl, rfl, rfl, rfl⟩

/-- A buffer is taken off the available list. -/
theorem Coherent.notavail (h : Coherent used s last dirty pend)
    (hpend : ∀ x : Ptr, x.IsBuf → (pend' x ↔ pend x)) :
    Coherent used (s.notavail bp) last dirty pend' :=
  h.congr ⟨rfl, rfl⟩ ⟨rfl, rfl⟩ ⟨rfl, rfl⟩
    (fun x => ⟨(s.notavail_flags bp x).1, (s.notavail_flags bp x).2.1,
      (s.notavail_flags bp x).2.2.1⟩) hpend

@[simp]
theorem Bio.brelse_data (bp : Ptr) (s : Bio π β) : (s.brelse bp).data = s.data := by
  unfold brelse
  dsimp only [Bio.setFlags]
  split_ifs <;> rfl

@[simp]
theorem Bio.brelse_disk (bp : Ptr) (s : Bio π β) : (s.brelse bp).disk = s.disk := by
  unfold brelse
  dsimp only [Bio.setFlags]
  split_ifs <;> rfl

/-- What `brelse` leaves of the flags. -/
theorem Bio.brelse_flags (hbp : bp ≠ .bfreelist) (x : Ptr) (s : Bio π β) :
    ((s.brelse bp).b_flags x).b_done = (s.b_flags x).b_done ∧
      ((s.brelse bp).b_flags x).b_read = (s.b_flags x).b_read ∧
      ((s.brelse bp).b_flags x).b_delwri = (s.b_flags x).b_delwri := by
  by_cases hx : x = bp
  · subst hx
    rw [Bio.brelse_flags_self hbp]
    exact ⟨rfl, rfl, rfl⟩
  · by_cases hhead : x = .bfreelist
    · subst hhead
      unfold Bio.brelse
      dsimp only [Bio.setFlags, Bio.wakeup]
      split_ifs <;> simp [update_of_ne hx]
    · rw [Bio.brelse_flags_of_ne hx hhead]
      exact ⟨rfl, rfl, rfl⟩

/-- Without an error `brelse` leaves the device alone. -/
theorem Bio.brelse_b_dev_eq (herror : (s.b_flags bp).b_error = false) :
    (s.brelse bp).b_dev = s.b_dev := by
  funext x
  rcases Bio.brelse_b_dev bp s x with hdev | ⟨herror', -⟩
  · exact hdev
  · rw [herror] at herror'
    cases herror'

/-- A buffer is released. -/
theorem Coherent.brelse (h : Coherent used s last dirty pend) (hbp : bp ≠ .bfreelist)
    (herror : (s.b_flags bp).b_error = false)
    (hpend : ∀ x : Ptr, x.IsBuf → (pend' x ↔ pend x)) :
    Coherent used (s.brelse bp) last dirty pend' :=
  h.congr ⟨Bio.brelse_b_dev_eq herror, Bio.brelse_b_blkno bp s⟩
    ⟨Bio.brelse_data bp s, Bio.brelse_disk bp s⟩
    ⟨Bio.brelse_d_active bp s, Bio.brelse_d_actf bp s⟩ (fun x => Bio.brelse_flags hbp x s) hpend

/-- A buffer that is not to be written is given to a block that no buffer has. -/
theorem Coherent.assign {dev blkno : Dev} {dp : Ptr} (h : Coherent used s last dirty pend)
    (hbuf : bp.IsBuf) (hnot : ¬pend bp) (hfirst : s.d_active ≠ 0 → s.d_actf ≠ bp)
    (hpend : ∀ x : Ptr, x.IsBuf → (pend' x ↔ x ≠ bp ∧ pend x)) :
    Coherent used (s.assign bp dp dev blkno) last dirty pend' := by
  have hdev : (s.assign bp dp dev blkno).b_dev = update s.b_dev bp dev := rfl
  have hblk : (s.assign bp dp dev blkno).b_blkno = update s.b_blkno bp blkno := rfl
  have hflags : (s.assign bp dp dev blkno).b_flags = update s.b_flags bp { b_busy := true } := rfl
  have hdata : (s.assign bp dp dev blkno).data = s.data := rfl
  have hdisk : (s.assign bp dp dev blkno).disk = s.disk := rfl
  refine ⟨fun x hx hpos hclean hval => ?_, fun d b hpos hused => ?_, fun hact hread => ?_,
    fun x hx hd => ?_⟩
  -- the reassigned buffer holds no valid data any more
  · rw [hpend x hx] at hval
    by_cases hxbp : x = bp
    · subst hxbp
      rw [hflags, update_self] at hval
      rcases hval with hdone | ⟨hne, -⟩
      · cases hdone
      · exact absurd rfl hne
    · rw [hdev, update_of_ne hxbp] at hpos
      rw [hflags, update_of_ne hxbp] at hval
      rw [hdata, hdev, hblk, update_of_ne hxbp, update_of_ne hxbp]
      exact h.valid x hx hpos hclean (hval.imp id And.right)
  -- a block not up to date on disk still has its pending write
  · rw [hdisk]
    rcases h.disk d b hpos hused with hd | ⟨x, hx, hkey, hkey', hp⟩
    · exact Or.inl hd
    · -- the pending write of the block is not in the buffer that is reassigned
      have hxbp : x ≠ bp := by
        rintro rfl
        exact hnot hp
      refine Or.inr ⟨x, hx, ?_, ?_, (hpend x hx).mpr ⟨hxbp, hp⟩⟩
      · rw [hdev, update_of_ne hxbp, hkey]
      · rw [hblk, update_of_ne hxbp, hkey']
  -- the drive works on another buffer
  · have hne : s.d_actf ≠ bp := hfirst hact
    change ((update s.b_flags bp _) s.d_actf).b_read = false at hread
    rw [update_of_ne hne] at hread
    change s.disk (Bio.rkSector ((update s.b_dev bp dev) s.d_actf)
      ((update s.b_blkno bp blkno) s.d_actf)) = _
    rw [update_of_ne hne, update_of_ne hne]
    exact h.sent hact hread
  -- the new flags carry no delayed write
  · rw [hflags] at hd ⊢
    by_cases hxbp : x = bp
    · subst hxbp
      rw [update_self] at hd
      cases hd
    · rw [update_of_ne hxbp] at hd ⊢
      exact h.delwri x hx hd

/-- Flags of a buffer that is not in the disk queue are set. -/
theorem Coherent.setFlags_quiet {f : BFlags → BFlags} (h : Coherent used s last dirty pend)
    (hfirst : s.d_active ≠ 0 → s.d_actf ≠ bp)
    (hvalid : (f (s.b_flags bp)).b_done = true ∨ pend' bp → (s.b_flags bp).b_done = true ∨ pend bp)
    (hdelwri : (f (s.b_flags bp)).b_delwri = true → (f (s.b_flags bp)).b_done = true)
    (hkeep : pend bp → pend' bp) (hpend : ∀ x : Ptr, x.IsBuf → x ≠ bp → (pend' x ↔ pend x)) :
    Coherent used (s.setFlags bp f) last dirty pend' := by
  refine ⟨fun x hx hpos hclean hval => ?_, fun d b hpos hused => ?_, fun hact hread => ?_,
    fun x hx hd => ?_⟩
  -- the four fields of `Coherent`, each for `bp` and for the other buffers
  · apply h.valid x hx hpos hclean
    by_cases hxbp : x = bp
    · rw [hxbp] at hval ⊢
      rw [Bio.setFlags_self] at hval
      exact hvalid hval
    · rw [Bio.setFlags_of_ne hxbp, hpend x hx hxbp] at hval
      exact hval
  -- a pending write stays pending
  · rcases h.disk d b hpos hused with hd | ⟨x, hx, hkey, hkey', hp⟩
    · exact Or.inl hd
    · refine Or.inr ⟨x, hx, hkey, hkey', ?_⟩
      by_cases hxbp : x = bp
      · rw [hxbp] at hp ⊢
        exact hkeep hp
      · exact (hpend x hx hxbp).mpr hp
  -- the drive works on another buffer
  · have hne : s.d_actf ≠ bp := hfirst hact
    change ((s.setFlags bp f).b_flags s.d_actf).b_read = false at hread
    rw [Bio.setFlags_of_ne hne] at hread
    exact h.sent hact hread
  · by_cases hxbp : x = bp
    · rw [hxbp] at hd ⊢
      rw [Bio.setFlags_self] at hd ⊢
      exact hdelwri hd
    · rw [Bio.setFlags_of_ne hxbp] at hd ⊢
      exact h.delwri x hx hd

/-! ## The disk -/

/-- What a request that the disk accepts changes. -/
theorem Bio.strategy_accepted (hs : s.strategy bp = some s') (hbp : bp ≠ .null)
    (haccepts : Accepts used (s.b_dev bp) (s.b_blkno bp))
    (hactive : s.d_active = 0 ↔ s.d_actf = .null) :
    s'.b_flags = s.b_flags ∧ s'.b_dev = s.b_dev ∧ s'.b_blkno = s.b_blkno ∧ s'.data = s.data ∧
      (s.d_active = 0 ∧ s'.d_actf = bp ∧ s'.disk = (s.devstart bp).disk ∨
        s.d_active ≠ 0 ∧ s'.d_active = s.d_active ∧ s'.d_actf = s.d_actf ∧ s'.disk = s.disk) := by
  obtain ⟨dp, hdp, rfl⟩ := Option.map_eq_some_iff.mp hs
  have hok := (haccepts (Bio.devtab_nonneg hdp)).1
  by_cases hidle : s.d_active = 0
  · have hnull := hactive.mp hidle
    unfold Bio.rkstrategy Bio.rkstart Bio.devstart
    simp only [hok, hnull, hidle, Bool.false_eq_true, if_false, if_true, hbp]
    split_ifs <;> simp
  · have hnull := mt hactive.mpr hidle
    unfold Bio.rkstrategy
    simp only [hok, hnull, hidle, Bool.false_eq_true, if_false]
    simp [hidle]

/-- A request for a buffer that is to be read, or has the latest contents of its block. -/
theorem Coherent.strategy (h : Coherent used s last dirty pend) (hapart : SectorsApart used)
    (hs : s.strategy bp = some s') (hbp : bp ≠ .null)
    (haccepts : Accepts used (s.b_dev bp) (s.b_blkno bp))
    (hactive : s.d_active = 0 ↔ s.d_actf = .null)
    (hval : (s.b_flags bp).b_read = false → (s.b_dev bp).slt 0 = false →
      s.data bp = last (s.b_dev bp) (s.b_blkno bp))
    (hpend : ∀ x : Ptr, x.IsBuf → (pend' x ↔ pend x)) : Coherent used s' last dirty pend' := by
  obtain ⟨hflags, hdev, hblk, hdata, hdisk⟩ := Bio.strategy_accepted hs hbp haccepts hactive
  obtain ⟨dp, hdp, -⟩ := Option.map_eq_some_iff.mp hs
  refine ⟨fun x hx hpos hclean hval => ?_, fun d b hpos hused => ?_, fun hact hread => ?_,
    fun x hx hd => ?_⟩
  · rw [hdev] at hpos
    rw [hflags, hpend x hx] at hval
    rw [hdata, hdev, hblk]
    exact h.valid x hx hpos hclean hval
  · rw [hdev, hblk]
    have hold : s.disk (Bio.rkSector d b) = last d b ∨
        ∃ x : Ptr, x.IsBuf ∧ s.b_dev x = d ∧ s.b_blkno x = b ∧ pend' x :=
      (h.disk d b hpos hused).imp id fun ⟨x, hx, hkey, hkey', hp⟩ =>
        ⟨x, hx, hkey, hkey', (hpend x hx).mpr hp⟩
    -- the drive was idle and starts at once, or the request waits in the queue
    rcases hdisk with ⟨-, -, hdisk⟩ | ⟨-, -, -, hdisk⟩
    · rw [hdisk]
      unfold Bio.devstart
      split
      · exact hold
      · rename_i hwrite
        dsimp only
        -- a write puts the latest contents on the sector of this block alone
        by_cases hsector : Bio.rkSector d b = Bio.rkSector (s.b_dev bp) (s.b_blkno bp)
        · obtain ⟨rfl, rfl⟩ :=
            hapart d b _ _ hused (haccepts (Bio.devtab_nonneg hdp)).2 hsector
          left
          rw [update_self]
          exact hval (Bool.eq_false_of_not_eq_true hwrite) hpos
        · rw [update_of_ne hsector]
          exact hold
    · rw [hdisk]
      exact hold
  · rcases hdisk with ⟨-, hactf, hdisk⟩ | ⟨hbusy, -, hactf, hdisk⟩
    · rw [hactf, hflags] at hread
      rw [hactf, hdev, hblk, hdata, hdisk]
      unfold Bio.devstart
      rw [if_neg (by simp [hread])]
      dsimp only
      rw [update_self]
    · rw [hactf, hflags] at hread
      rw [hactf, hdev, hblk, hdata, hdisk]
      exact h.sent hbusy hread
  · rw [hflags] at hd ⊢
    exact h.delwri x hx hd

@[simp]
theorem Bio.iodone_data (bp : Ptr) (s : Bio π β) : (s.iodone bp).data = s.data := by
  unfold iodone
  dsimp only
  split_ifs
  · rw [brelse_data]
    rfl
  · rfl

@[simp]
theorem Bio.iodone_disk (bp : Ptr) (s : Bio π β) : (s.iodone bp).disk = s.disk := by
  unfold iodone
  dsimp only
  split_ifs
  · rw [brelse_disk]
    rfl
  · rfl

/-- The buffer is done. -/
theorem Bio.iodone_done (hbp : bp ≠ .bfreelist) (s : Bio π β) :
    ((s.iodone bp).b_flags bp).b_done = true := by
  unfold iodone
  dsimp only
  split_ifs
  · rw [brelse_flags_self hbp, setFlags_self]
  · simp [wakeup]

@[simp]
theorem Bio.fetch_disk (bp : Ptr) (s : Bio π β) : (s.fetch bp).disk = s.disk := by
  unfold fetch
  split <;> rfl

/-- Fetching a block changes one buffer. -/
theorem Bio.fetch_data_of_ne {x : Ptr} (hx : x ≠ bp) (s : Bio π β) :
    (s.fetch bp).data x = s.data x := by
  unfold fetch
  split
  · exact update_of_ne hx ..
  · rfl

@[simp]
theorem Bio.rkstart_data (s : Bio π β) : s.rkstart.data = s.data := by
  unfold rkstart devstart
  split_ifs <;> rfl

@[simp]
theorem Bio.rkstart_d_actf (s : Bio π β) : s.rkstart.d_actf = s.d_actf := by
  unfold rkstart devstart
  split_ifs <;> rfl

/-- A request that is not a read is written when it starts. -/
theorem Bio.rkstart_disk (s : Bio π β) : s.rkstart.disk =
    if s.d_actf = .null ∨ (s.b_flags s.d_actf).b_read = true then s.disk
    else update s.disk (rkSector (s.b_dev s.d_actf) (s.b_blkno s.d_actf)) (s.data s.d_actf) := by
  unfold rkstart devstart
  split_ifs <;> simp_all

/-- What the interrupt changes. -/
theorem Bio.rkintr_spec (hact : s.d_active ≠ 0) (hbp : s.d_actf = bp) (hbuf : bp.IsBuf)
    (herror : (s.b_flags bp).b_error = false) :
    s.rkintr.b_dev = s.b_dev ∧ s.rkintr.b_blkno = s.b_blkno ∧
      (∀ x : Ptr, x.IsBuf → x ≠ bp → s.rkintr.b_flags x = s.b_flags x) ∧
      (s.rkintr.b_flags bp).b_done = true ∧
      s.rkintr.data = (s.fetch bp).data ∧ s.rkintr.d_actf = s.av_forw bp ∧
      s.rkintr.disk =
        if s.av_forw bp = .null ∨ (s.rkintr.b_flags (s.av_forw bp)).b_read = true then s.disk
        else update s.disk (rkSector (s.b_dev (s.av_forw bp)) (s.b_blkno (s.av_forw bp)))
          ((s.fetch bp).data (s.av_forw bp)) := by
  have hdev := Bio.rkintr_b_dev (s := s) (hbp ▸ herror)
  refine ⟨hdev, Bio.rkintr_b_blkno s,
    fun x hx hne => Bio.rkintr_flags_of_ne (hbp ▸ hne) hx.ne_bfreelist, ?_, ?_, ?_, ?_⟩
  -- `iodone` marks the buffer, and the next request's start does not clear it
  · rw [rkintr, if_neg hact, hbp]
    dsimp only
    rw [rkstart_b_flags]
    exact iodone_done hbuf.ne_bfreelist _
  · rw [rkintr, if_neg hact, hbp]
    dsimp only
    rw [rkstart_data, iodone_data]
  -- the queue moves on to the next request
  · rw [rkintr, if_neg hact, hbp]
    dsimp only
    rw [rkstart_d_actf, iodone_d_actf]
    dsimp only
    rw [fetch_av_forw]
  -- a next request that writes sends its data at once
  · rw [rkintr, if_neg hact] at hdev
    rw [rkintr, if_neg hact]
    rw [hbp] at hdev ⊢
    dsimp only at hdev ⊢
    rw [rkstart_b_dev] at hdev
    rw [rkstart_disk, rkstart_b_flags, hdev, iodone_d_actf, iodone_b_blkno, iodone_data,
      iodone_disk]
    dsimp only
    rw [fetch_av_forw, fetch_b_blkno, fetch_disk]

/-- The interrupt at the end of the transfer of `bp`. -/
theorem Coherent.rkintr (h : Coherent used s last dirty pend) (hapart : SectorsApart used)
    (hact : s.d_active ≠ 0) (hbp : s.d_actf = bp) (hbuf : bp.IsBuf)
    (herror : (s.b_flags bp).b_error = false) (hkey : used (s.b_dev bp) (s.b_blkno bp))
    (hunique : ∀ x : Ptr, x.IsBuf → (s.b_dev bp).slt 0 = false → s.b_dev x = s.b_dev bp →
      s.b_blkno x = s.b_blkno bp → x = bp)
    (hclean : dirty bp = false) (hread : (s.b_flags bp).b_read = true → ¬pend bp)
    (hwrite : (s.b_flags bp).b_read = false → pend bp)
    (hnext : s.av_forw bp ≠ .null → (s.av_forw bp).IsBuf ∧ s.av_forw bp ≠ bp ∧
      dirty (s.av_forw bp) = false ∧ used (s.b_dev (s.av_forw bp)) (s.b_blkno (s.av_forw bp)) ∧
      ((s.b_flags (s.av_forw bp)).b_read = false → pend (s.av_forw bp)))
    (hpend : ∀ x : Ptr, x.IsBuf → x ≠ bp → (pend' x ↔ pend x)) :
    Coherent used s.rkintr last dirty pend' := by
  obtain ⟨hdev, hblk, hflags, hdone, hdata, hactf, hdisk⟩ :=
    Bio.rkintr_spec hact hbp hbuf herror
  -- what the buffer holds after the transfer, and that the disk has it too
  have hheld : (s.b_dev bp).slt 0 = false →
      (s.fetch bp).data bp = last (s.b_dev bp) (s.b_blkno bp) ∧
        s.disk (Bio.rkSector (s.b_dev bp) (s.b_blkno bp)) =
          last (s.b_dev bp) (s.b_blkno bp) := by
    intro hpos
    unfold Bio.fetch
    by_cases hr : (s.b_flags bp).b_read = true
    · rw [if_pos hr]
      have hd : s.disk (Bio.rkSector (s.b_dev bp) (s.b_blkno bp)) =
          last (s.b_dev bp) (s.b_blkno bp) := by
        rcases h.disk _ (s.b_blkno bp) hpos hkey with hd | ⟨x, hx, hdev', hblk', hp⟩
        · exact hd
        · rw [hunique x hx hpos hdev' hblk'] at hp
          exact absurd hp (hread hr)
      exact ⟨(update_self ..).trans hd, hd⟩
    · rw [if_neg hr]
      rw [Bool.not_eq_true] at hr
      have hv := h.valid bp hbuf hpos hclean (Or.inr (hwrite hr))
      have hsent := h.sent hact (hbp ▸ hr)
      rw [hbp] at hsent
      exact ⟨hv, hsent.trans hv⟩
  refine ⟨fun x hx hpos hdirty hval => ?_, fun d b hpos hused => ?_, fun hact' hr => ?_,
    fun x hx hd => ?_⟩
  · rw [hdev] at hpos
    rw [hdata, hdev, hblk]
    by_cases hxbp : x = bp
    · rw [hxbp] at hpos ⊢
      exact (hheld hpos).1
    · rw [hflags x hx hxbp, hpend x hx hxbp] at hval
      rw [Bio.fetch_data_of_ne hxbp]
      exact h.valid x hx hpos hdirty hval
  · rw [hdev, hblk]
    have hold : s.disk (Bio.rkSector d b) = last d b ∨
        ∃ x : Ptr, x.IsBuf ∧ s.b_dev x = d ∧ s.b_blkno x = b ∧ pend' x := by
      rcases h.disk d b hpos hused with hd | ⟨x, hx, hdev', hblk', hp⟩
      · exact Or.inl hd
      · by_cases hxbp : x = bp
        · left
          subst hxbp hdev' hblk'
          exact (hheld hpos).2
        · exact Or.inr ⟨x, hx, hdev', hblk', (hpend x hx hxbp).mpr hp⟩
    rw [hdisk]
    split
    · exact hold
    · rename_i hsend
      obtain ⟨hnull, hr⟩ := not_or.mp hsend
      obtain ⟨hybuf, hyne, hydirty, hykey, hypend⟩ := hnext hnull
      rw [hflags _ hybuf hyne, Bool.not_eq_true] at hr
      by_cases hsector : Bio.rkSector d b =
          Bio.rkSector (s.b_dev (s.av_forw bp)) (s.b_blkno (s.av_forw bp))
      · obtain ⟨rfl, rfl⟩ := hapart d b _ _ hused hykey hsector
        left
        rw [update_self, Bio.fetch_data_of_ne hyne]
        exact h.valid _ hybuf hpos hydirty (Or.inr (hypend hr))
      · rw [update_of_ne hsector]
        exact hold
  · rw [hactf] at hr ⊢
    rw [hdev, hblk, hdata, hdisk]
    by_cases hnull : s.av_forw bp = .null
    · exfalso
      have hd := Bio.rkintr_d_active hact
      rw [hbp, if_pos hnull] at hd
      exact hact' hd
    · rw [if_neg (by simp [hnull, hr]), update_self]
  · by_cases hxbp : x = bp
    · rw [hxbp]
      exact hdone
    · rw [hflags x hx hxbp] at hd ⊢
      exact h.delwri x hx hd

/-! ## The users -/

/-- Process `p` gives up the buffer with a write, when it has the contents of its block alone. -/
theorem Coherent.release (h : Coherent used s last dirty pend)
    (hunique : ∀ x : Ptr, x.IsBuf → (s.b_dev bp).slt 0 = false → s.b_dev x = s.b_dev bp →
      s.b_blkno x = s.b_blkno bp → x = bp) (hbuf : bp.IsBuf) :
    Coherent used s
      (update last (s.b_dev bp) (update (last (s.b_dev bp)) (s.b_blkno bp) (s.data bp)))
      (update dirty bp false) (fun x => x = bp ∨ pend x) := by
  refine ⟨fun x hx hpos hclean hval => ?_, fun d b hpos hused => ?_, h.sent, h.delwri⟩
  · by_cases hxbp : x = bp
    · rw [hxbp, update_self, update_self]
    · rw [update_of_ne hxbp] at hclean
      -- the contents of the other buffers are those of other blocks
      have hold := h.valid x hx hpos hclean (hval.imp id fun hp => hp.resolve_left hxbp)
      by_cases hd : s.b_dev x = s.b_dev bp
      · have hb : s.b_blkno x ≠ s.b_blkno bp := by
          intro hb
          rw [hd] at hpos
          exact hxbp (hunique x hx hpos hd hb)
        rw [hd, update_self, update_of_ne hb, ← hd]
        exact hold
      · rw [update_of_ne hd]
        exact hold
  · -- the block written is pending now
    by_cases hkey : s.b_dev bp = d ∧ s.b_blkno bp = b
    · exact Or.inr ⟨bp, hbuf, hkey.1, hkey.2, Or.inl rfl⟩
    · rcases h.disk d b hpos hused with hd | ⟨x, hx, hx1, hx2, hp⟩
      · left
        rw [hd]
        by_cases hdev : d = s.b_dev bp
        · have hb : b ≠ s.b_blkno bp := fun hb => hkey ⟨hdev.symm, hb.symm⟩
          rw [hdev, update_self, update_of_ne hb]
        · rw [update_of_ne hdev]
      · exact Or.inr ⟨x, hx, hx1, hx2, Or.inr hp⟩

/-- The holder of a buffer that is not in the disk queue changes its contents. -/
theorem Coherent.modify (h : Coherent used s last dirty pend) (val : β)
    (hfirst : s.d_active ≠ 0 → s.d_actf ≠ bp) :
    Coherent used { s with data := update s.data bp val } last (update dirty bp true) pend := by
  refine ⟨fun x hx hpos hclean hval => ?_, h.disk, fun hact hread => ?_, h.delwri⟩
  · have hxbp : x ≠ bp := by
      rintro rfl
      rw [update_self] at hclean
      cases hclean
    rw [update_of_ne hxbp] at hclean
    exact (update_of_ne hxbp ..).trans (h.valid x hx hpos hclean hval)
  · exact (h.sent hact hread).trans (update_of_ne (hfirst hact) ..).symm

end UnixV6
