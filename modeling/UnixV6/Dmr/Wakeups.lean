import UnixV6.Dmr.BufWaitPieces

/-!
# No wakeup is lost

In every reachable state what a sleeping process waits for is still to come, and whoever brings it
about will find the flag that makes him wake it up.

The clearings of `B_WANTED` are in `brelse`, `iodone`, `getblk` and `swap`. The first two wake up
all processes on the channel; in the other two there are none left.
-/

open Function

namespace UnixV6.BufWait

variable {π : Type}

/-! ## One step -/

section

variable [DecidableEq π] {s s' : Sys π} {b : Headers π} {holder holder' : Hdr → Holder π} {p : π}
  {bp : Hdr}

/-- A piece of code run by process `p`: what is to be shown is the assertion that `p` comes to. -/
theorem InvAt.run (h : InvAt s holder)
    (hcur : s.cur = some p ∨ s.cur = none ∧ s.p_wchan p = none)
    (hpiece : Effect p s.toHeaders holder b holder') {k : Pc} {hd : List Hdr}
    (hp : ProcOk b holder' p k hd) {c : Option π} (hc : c = some p ∨ c = none ∧ k.Parked) :
    InvAt ⟨b, update s.pc p k, update s.held p hd, c⟩ holder' := by
  -- no other process is in the middle of a piece
  have hparked : ∀ r, r ≠ p → (s.pc r).Parked := by
    intro r hr
    apply h.parked
    rcases hcur with hcur | ⟨hcur, -⟩
    · rw [hcur]
      simpa using hr.symm
    · simp [hcur]
  -- the process that runs is not asleep
  have hawake : s.p_wchan p = none := by
    rcases hcur with hcur | ⟨-, hp⟩
    · by_contra hne
      obtain ⟨chan, hchan⟩ := Option.ne_none_iff_exists'.mp hne
      exact (h.asleep p chan hchan).1 hcur
    · exact hp
  refine ⟨hpiece.sound, fun r => ?_, fun r hr => ?_, fun r chan hr => ?_⟩
  -- `p` itself is where the piece left it
  · by_cases hrp : r = p
    · subst hrp
      simp only [update_self]
      exact hp
    -- the others' buffers are untouched
    · obtain ⟨howns, hswaps, -⟩ := h.procs r
      have huntouched := hpiece.other r hrp
      simp only [update_of_ne hrp]
      refine ⟨howns.untouched (Pc.quiet_subset_hand _) (Pc.calm_subset_hand _) huntouched,
        fun hsw => hswaps ((huntouched .swbuf).1.mp hsw), (hparked r hrp).knows⟩
  -- who does not run is at a sleep point
  · by_cases hrp : r = p
    · subst hrp
      simp only [update_self]
      rcases hc with rfl | ⟨-, hk⟩
      · exact absurd rfl hr
      · exact hk
    · simp only [update_of_ne hrp]
      exact hparked r hrp
  -- who is still asleep was asleep before, and is not `p`
  · have hr₀ := hpiece.kept.wchan r chan hr
    have hrp : r ≠ p := by
      rintro rfl
      rw [hawake] at hr₀
      cases hr₀
    simp only [update_of_ne hrp]
    refine ⟨?_, hpiece.kept.awaits hr (h.asleep r chan hr₀).2⟩
    rcases hc with rfl | ⟨rfl, -⟩
    · simpa using hrp.symm
    · simp

end

namespace Sys

variable [DecidableEq π] {s s' : Sys π} {b : Headers π} {holder holder' : Hdr → Holder π} {p : π}
  {bp : Hdr} {quiet : List Hdr} {swapdev : Dev}

section

variable (h : InvAt s holder) (hcur : s.cur = some p ∨ s.cur = none ∧ s.p_wchan p = none)

include h hcur

/-- Process `p` goes on to `k`. -/
theorem inv_next (hpiece : Effect p s.toHeaders holder b holder') {k : Pc}
    (hp : ProcOk b holder' p k (s.held p)) : (goto p k { s with toHeaders := b }).Inv := by
  have hrun := h.run hcur hpiece hp (Or.inl rfl)
  rw [update_eq_self] at hrun
  exact ⟨holder', hrun⟩

/-- Process `p` sleeps until what it waits for has come. -/
theorem inv_sleep (hpiece : Effect p s.toHeaders holder b holder') {k : Pc} {chan : Hdr}
    (hp : ProcOk b holder' p k (s.held p)) (hk : k.Parked) (hawaits : k.Awaits b chan) :
    (sleep p chan k { s with toHeaders := b }).Inv := by
  have hrun := h.run hcur hpiece hp (Or.inr ⟨rfl, hk⟩)
  rw [update_eq_self] at hrun
  obtain ⟨hsound, hprocs, hparked, hasleep⟩ := hrun
  refine ⟨holder', ⟨⟨hsound.avail, hsound.free, hsound.listed, hsound.head, hsound.swbuf,
    hsound.busy, hsound.calm, hsound.nodup, hsound.queue⟩, hsound.io, hsound.active⟩, fun r => ?_,
    hparked, fun r chan' hr => ⟨by simp [sleep], ?_⟩⟩
  · obtain ⟨howns, hswaps, -⟩ := hprocs r
    exact ⟨⟨howns.own, howns.nodup, howns.started, howns.quiet, howns.calm⟩, hswaps,
      (hparked r (by simp)).knows⟩
  · -- what is waited for does not depend on who sleeps
    have hsame : ∀ k' : Pc, k'.Awaits b chan' → k'.Awaits (sleep p chan k
        { s with toHeaders := b }).toHeaders chan' := fun k' hk' => by cases k' <;> exact hk'
    apply hsame
    simp only [sleep] at hr ⊢
    by_cases hrp : r = p
    · subst hrp
      simp only [update_self] at hr ⊢
      obtain rfl := Option.some.inj hr
      exact hawaits
    · simp only [update_of_ne hrp] at hr ⊢
      have hold := (hasleep r chan' hr).2
      simpa only [update_of_ne hrp] using hold

section

variable (hno : holder .swbuf ≠ .proc p)

include hno

/-- Process `p`, which does not use `swbuf`, goes on to `k`. -/
theorem inv_goto (hpiece : Piece p s.toHeaders holder b holder') {k : Pc}
    (ho : Owns b holder' p k.hand k.quiet k.calm (s.held p)) (hknows : k.Knows b holder') :
    (goto p k { s with toHeaders := b }).Inv :=
  inv_next h hcur hpiece.toEffect ⟨ho, fun hsw => absurd hsw (hpiece.swbuf hno), hknows⟩

/-- The process leaves the routines. -/
theorem inv_leave (hpiece : Piece p s.toHeaders holder b holder')
    (ho : Owns b holder' p [] [] [] (s.held p)) : (leave p { s with toHeaders := b }).Inv := by
  have hrun := h.run hcur hpiece.toEffect (k := .user)
    ⟨ho, fun hsw => absurd hsw (hpiece.swbuf hno), trivial⟩ (Or.inr ⟨rfl, trivial⟩)
  rw [update_eq_self] at hrun
  exact ⟨holder', hrun⟩

/-- The process leaves with a buffer. -/
theorem inv_leaveWith (hpiece : Piece p s.toHeaders holder b holder')
    (ho : Owns b holder' p [bp] quiet [bp] (s.held p)) (hq : bp ∉ b.queue) :
    (leaveWith p bp { s with toHeaders := b }).Inv :=
  ⟨holder', h.run hcur hpiece.toEffect (k := .user)
    ⟨ho.keep hq, fun hsw => absurd hsw (hpiece.swbuf hno), trivial⟩ (Or.inr ⟨rfl, trivial⟩)⟩

/-- `getblk` returns its buffer to the routine behind it. -/
theorem inv_getblkReturn (hpiece : Piece p s.toHeaders holder b holder') {k : GetblkRet}
    (ho : Owns b holder' p (bp :: k.hand) [bp] (bp :: k.hand) (s.held p)) :
    (getblkReturn p bp k { s with toHeaders := b }).Inv := by
  have hq := ho.quiet bp (Or.inr List.mem_cons_self)
  cases k with
  | user => exact inv_leaveWith h hcur hno hpiece ho hq
  | bread dev blkno => exact inv_goto h hcur hno hpiece ho trivial
  | breada dev blkno rablkno => exact inv_goto h hcur hno hpiece ho trivial
  | readahead dev blkno rbp => exact inv_goto h hcur hno hpiece ho trivial

/-- `bwrite` returns to the routine behind it. -/
theorem inv_bwriteReturn (hpiece : Piece p s.toHeaders holder b holder') {k : BwriteRet}
    (ho : Owns b holder' p k.hand [] k.hand (s.held p)) :
    (bwriteReturn p k { s with toHeaders := b }).Inv := by
  cases k with
  | user => exact inv_leave h hcur hno hpiece ho
  | getblk dev blkno k => exact inv_goto h hcur hno hpiece ho trivial
  | bflush dev => exact inv_goto h hcur hno hpiece ho trivial

/-- `breada` comes to its end. -/
theorem inv_breadaReturn (hpiece : Piece p s.toHeaders holder b holder') {dev blkno : Dev}
    {rbp : Option Hdr} (ho : Owns b holder' p rbp.toList [] rbp.toList (s.held p)) :
    (breadaReturn p dev blkno rbp { s with toHeaders := b }).Inv := by
  cases rbp with
  | none => exact inv_goto h hcur hno hpiece ho trivial
  | some bp => exact inv_goto h hcur hno hpiece ho trivial

end

omit [DecidableEq π] hcur in
/-- What process `p` has is a buffer, if it does not use `swbuf`. -/
theorem isBuf_of_own (hno : holder .swbuf ≠ .proc p) (hbp : holder bp = .proc p) : bp.IsBuf := by
  refine h.sound.isBuf (by simp [hbp]) ?_
  rintro rfl
  exact hno hbp

/-- `getblk` looks for the block. -/
theorem inv_getblk {dev blkno : Dev} {k : GetblkRet} (hpc : s.pc p = .getblk dev blkno k)
    (hs : s.runPiece swapdev p = some s') : s'.Inv := by
  obtain ⟨ho, hno, -⟩ := hpc ▸ h.procs p
  have hsame := Piece.refl (p := p) h.sound
  simp only [runPiece, hpc] at hs
  split at hs
  · obtain rfl := Option.some.inj hs
    exact inv_goto h hcur hno hsame ho trivial
  · obtain ⟨found, hfound, rfl⟩ := Option.map_eq_some_iff.mp hs
    cases found with
    | none => exact inv_goto h hcur hno hsame ho trivial
    | some bp =>
      obtain ⟨-, -, hfind⟩ := Option.map_eq_some_iff.mp hfound
      exact inv_goto h hcur hno hsame ho (h.sound.listed bp (List.mem_of_find?_eq_some hfind))

/-- `getblk` has found the block, and sleeps if its buffer is busy. -/
theorem inv_getblkFound {dev blkno : Dev} {k : GetblkRet}
    (hpc : s.pc p = .getblkFound bp dev blkno k) (hs : s.runPiece swapdev p = some s') :
    s'.Inv := by
  obtain ⟨ho, hno, hbuf⟩ := hpc ▸ h.procs p
  have hne : bp ≠ .bfreelist := by
    rintro rfl
    exact hbuf
  simp only [runPiece, hpc] at hs
  split at hs
  · -- busy: ask to be woken up
    rename_i hbusy
    obtain rfl := Option.some.inj hs
    have hwant := h.sound.want (p := p) bp
    refine inv_sleep h hcur hwant.toEffect ⟨?_, fun hsw => absurd hsw hno, trivial⟩ trivial
      (Or.inl ⟨hbuf, ?_⟩)
    · exact ho.untouched (Pc.quiet_subset_hand _) (Pc.calm_subset_hand _) (untouched_want bp)
    · rw [Headers.Contended, Headers.setFlags_self]
      exact ⟨hbusy, rfl⟩
  · rename_i hfree
    obtain rfl := Option.some.inj hs
    refine inv_goto h hcur hno (Piece.refl h.sound) ho ⟨hbuf, ?_⟩
    by_contra hhold
    exact hfree ((h.sound.busy bp hne).mpr hhold)

/-- `getblk` takes the buffer that it has found. -/
theorem inv_getblkTake {k : GetblkRet} (hpc : s.pc p = .getblkTake bp k)
    (hs : s.runPiece swapdev p = some s') : s'.Inv := by
  obtain ⟨ho, hno, hbuf, havail⟩ := hpc ▸ h.procs p
  simp only [runPiece, hpc] at hs
  obtain rfl := Option.some.inj hs
  exact inv_getblkReturn h hcur hno (h.sound.take hbuf havail) (ho.take h.sound hbuf havail)

/-- `getblk` has not found the block, and sleeps if no buffer is available. -/
theorem inv_getblkAvail {dev blkno : Dev} {k : GetblkRet}
    (hpc : s.pc p = .getblkAvail dev blkno k) (hs : s.runPiece swapdev p = some s') :
    s'.Inv := by
  obtain ⟨ho, hno, -⟩ := hpc ▸ h.procs p
  simp only [runPiece, hpc] at hs
  split at hs
  · rename_i hempty
    obtain rfl := Option.some.inj hs
    have hwant := h.sound.want (p := p) .bfreelist
    refine inv_sleep h hcur hwant.toEffect ⟨?_, fun hsw => absurd hsw hno, trivial⟩ trivial
      (Or.inr ⟨rfl, ?_, hempty⟩)
    · exact ho.untouched (Pc.quiet_subset_hand _) (Pc.calm_subset_hand _)
        (untouched_want .bfreelist)
    · rw [Headers.setFlags_self]
  · obtain rfl := Option.some.inj hs
    exact inv_goto h hcur hno (Piece.refl h.sound) ho trivial

/-- `getblk` takes the oldest available buffer. -/
theorem inv_getblkOldest {dev blkno : Dev} {k : GetblkRet}
    (hpc : s.pc p = .getblkOldest dev blkno k) (hs : s.runPiece swapdev p = some s') :
    s'.Inv := by
  obtain ⟨ho, hno, -⟩ := hpc ▸ h.procs p
  simp only [runPiece, hpc] at hs
  obtain ⟨bp, hhead, rfl⟩ := Option.map_eq_some_iff.mp hs
  obtain ⟨hbuf, havail⟩ := h.sound.free bp (List.mem_of_head? hhead)
  have hne : bp ≠ .bfreelist := by
    rintro rfl
    exact hbuf
  refine inv_goto h hcur hno (h.sound.take hbuf havail) (ho.take h.sound hbuf havail) fun r hr => ?_
  exact h.sound.nobody hne havail (h.asleep r bp hr).2

/-- `getblk` gives a buffer to the block, or goes on to write it out. -/
theorem inv_getblkReuse {dev blkno : Dev} {k : GetblkRet}
    (hpc : s.pc p = .getblkReuse bp dev blkno k) (hs : s.runPiece swapdev p = some s') :
    s'.Inv := by
  obtain ⟨ho, hno, hnobody⟩ := hpc ▸ h.procs p
  have hbp := ho.holder_eq
  have hq : bp ∉ s.queue := ho.quiet bp (Or.inr List.mem_cons_self)
  have hbuf := isBuf_of_own h hno hbp
  simp only [runPiece, hpc] at hs
  split at hs
  · -- a delayed write comes first
    obtain rfl := Option.some.inj hs
    have hset := h.sound.setFlags_own hbp hq (fun fl => { fl with b_async := true }) rfl
      (Kept.setFlags_of_none _ hnobody)
    refine inv_goto h hcur hno hset (ho.stay (elsewhere_setFlags bp _) rfl (List.Subset.refl _)
      (List.Subset.refl _) ?_ (Or.inl List.mem_cons_self) (fun _ => hq) fun hmem => ?_) trivial
    · exact fun x hx => List.mem_cons_of_mem _ (List.mem_cons_of_mem _ hx)
    · exact absurd rfl (ho.ne (Or.inr hmem))
  · obtain ⟨dp, hdp, rfl⟩ := Option.map_eq_some_iff.mp hs
    obtain ⟨hpiece, he, hqueue, hasync⟩ := h.sound.assign hbuf hbp hq hnobody dp dev blkno
    exact inv_getblkReturn h hcur hno hpiece (ho.stay he rfl (List.Subset.refl _)
      (List.Subset.refl _) (fun x hx => List.mem_cons_of_mem _ hx) (Or.inl List.mem_cons_self)
      (fun _ => by rwa [hqueue]) fun _ => hasync)

/-- `bread` starts the transfer, unless the block is in core. -/
theorem inv_bread (hpc : s.pc p = .bread bp) (hs : s.runPiece swapdev p = some s') : s'.Inv := by
  obtain ⟨ho, hno, -⟩ := hpc ▸ h.procs p
  have hbuf := isBuf_of_own h hno ho.holder_eq
  simp only [runPiece, hpc] at hs
  split at hs
  · obtain rfl := Option.some.inj hs
    exact inv_leaveWith h hcur hno (Piece.refl h.sound) ho
      (ho.quiet bp (Or.inr List.mem_cons_self))
  · rename_i hdone
    rw [Bool.not_eq_true] at hdone
    obtain ⟨b, hb, rfl⟩ := Option.map_eq_some_iff.mp hs
    obtain ⟨holder', hpiece, -, hsync⟩ := h.sound.request ho (List.nil_subset _) hbuf _ rfl rfl
      hdone hb
    exact inv_goto h hcur hno hpiece (hsync (ho.calm bp (Or.inr List.mem_cons_self))) trivial

/-- `breada` looks for the first block. -/
theorem inv_breada {dev blkno rablkno : Dev} (hpc : s.pc p = .breada dev blkno rablkno)
    (hs : s.runPiece swapdev p = some s') : s'.Inv := by
  obtain ⟨ho, hno, -⟩ := hpc ▸ h.procs p
  simp only [runPiece, hpc] at hs
  obtain ⟨found, -, rfl⟩ := Option.map_eq_some_iff.mp hs
  cases found with
  | none => exact inv_goto h hcur hno (Piece.refl h.sound) ho trivial
  | some x => exact inv_goto h hcur hno (Piece.refl h.sound) ho trivial

/-- `breada` starts the transfer of the first block. -/
theorem inv_breadaRead {dev blkno rablkno : Dev} (hpc : s.pc p = .breadaRead bp dev blkno rablkno)
    (hs : s.runPiece swapdev p = some s') : s'.Inv := by
  obtain ⟨ho, hno, -⟩ := hpc ▸ h.procs p
  have hbuf := isBuf_of_own h hno ho.holder_eq
  have hasync := ho.calm bp (Or.inr List.mem_cons_self)
  simp only [runPiece, hpc] at hs
  split at hs
  · rename_i hdone
    obtain rfl := Option.some.inj hs
    exact inv_goto h hcur hno (Piece.refl h.sound) (ho.stay (elsewhere_refl bp) rfl
      (List.Subset.refl _) (List.nil_subset _) (List.subset_cons_self ..)
      (Or.inr (Or.inl hdone)) (fun hmem => absurd hmem List.not_mem_nil) fun _ => hasync) trivial
  · rename_i hdone
    rw [Bool.not_eq_true] at hdone
    obtain ⟨b, hb, rfl⟩ := Option.map_eq_some_iff.mp hs
    obtain ⟨holder', hpiece, -, hsync⟩ := h.sound.request ho (List.nil_subset _) hbuf _ rfl rfl
      hdone hb
    exact inv_goto h hcur hno hpiece (hsync hasync) trivial

/-- `breada` looks for the block to be read ahead. -/
theorem inv_readahead {dev blkno rablkno : Dev} {rbp : Option Hdr}
    (hpc : s.pc p = .readahead dev blkno rablkno rbp) (hs : s.runPiece swapdev p = some s') :
    s'.Inv := by
  obtain ⟨ho, hno, -⟩ := hpc ▸ h.procs p
  have hreturn : (s.breadaReturn p dev blkno rbp).Inv :=
    inv_breadaReturn h hcur hno (Piece.refl h.sound) ho
  simp only [runPiece, hpc] at hs
  split at hs
  · obtain rfl := Option.some.inj hs
    exact hreturn
  · obtain ⟨found, -, rfl⟩ := Option.map_eq_some_iff.mp hs
    cases found with
    | none => exact inv_goto h hcur hno (Piece.refl h.sound) ho trivial
    | some x => exact hreturn

/-- `breada` starts the transfer of the block to be read ahead, or releases its buffer. -/
theorem inv_readaheadRead {dev blkno : Dev} {rbp : Option Hdr}
    (hpc : s.pc p = .readaheadRead bp dev blkno rbp) (hs : s.runPiece swapdev p = some s') :
    s'.Inv := by
  obtain ⟨ho, hno, -⟩ := hpc ▸ h.procs p
  have hbuf := isBuf_of_own h hno ho.holder_eq
  simp only [runPiece, hpc] at hs
  split at hs
  · obtain rfl := Option.some.inj hs
    exact inv_breadaReturn h hcur hno
      (h.sound.release hbuf ho.holder_eq (ho.quiet bp (Or.inr List.mem_cons_self)))
      (ho.drop (List.subset_cons_self ..) (elsewhere_brelse bp) (by simp))
  · rename_i hdone
    rw [Bool.not_eq_true] at hdone
    obtain ⟨b, hb, rfl⟩ := Option.map_eq_some_iff.mp hs
    obtain ⟨holder', hpiece, hasync, -⟩ := h.sound.request ho (List.subset_cons_self ..) hbuf _
      rfl rfl hdone hb
    exact inv_breadaReturn h hcur hno hpiece (hasync rfl)

/-- `bwrite` starts the transfer. -/
theorem inv_bwrite {k : BwriteRet} (hpc : s.pc p = .bwrite bp k)
    (hs : s.runPiece swapdev p = some s') : s'.Inv := by
  obtain ⟨ho, hno, -⟩ := hpc ▸ h.procs p
  have hbuf := isBuf_of_own h hno ho.holder_eq
  simp only [runPiece, hpc] at hs
  obtain ⟨b, hb, rfl⟩ := Option.map_eq_some_iff.mp hs
  obtain ⟨holder', hpiece, hasync, hsync⟩ := h.sound.request ho (List.Subset.refl _) hbuf _ rfl rfl
    rfl hb
  by_cases ha : (s.b_flags bp).b_async = true
  · rw [if_pos ha]
    exact inv_bwriteReturn h hcur hno hpiece (hasync ha)
  · rw [if_neg ha]
    rw [Bool.not_eq_true] at ha
    exact inv_goto h hcur hno hpiece (hsync ha) trivial

/-- `iowait` sleeps until the transfer is done. -/
theorem inv_iowait {k : IowaitRet} (hpc : s.pc p = .iowait bp k)
    (hs : s.runPiece swapdev p = some s') : s'.Inv := by
  obtain ⟨ho, hno, -⟩ := hpc ▸ h.procs p
  have hasync := ho.calm bp (Or.inr List.mem_cons_self)
  simp only [runPiece, hpc] at hs
  split at hs
  · -- what is done is not queued
    rename_i hdone
    have hq : bp ∉ s.queue := by
      intro hmem
      rw [(h.sound.queue bp hmem).2.1] at hdone
      cases hdone
    cases k with
    | read =>
      obtain rfl := Option.some.inj hs
      exact inv_leaveWith h hcur hno (Piece.refl h.sound) ho hq
    | write k =>
      obtain rfl := Option.some.inj hs
      exact inv_goto h hcur hno (Piece.refl h.sound) (ho.stay (elsewhere_refl bp) rfl
        (List.nil_subset _) (List.Subset.refl _) (List.subset_cons_self ..)
        (Or.inl List.mem_cons_self) (fun _ => hq) fun _ => hasync) trivial
  · rename_i hdone
    rw [Bool.not_eq_true] at hdone
    obtain rfl := Option.some.inj hs
    have hstart := (ho.started bp List.mem_cons_self).resolve_left List.not_mem_nil
    exact inv_sleep h hcur (Piece.refl h.sound).toEffect
      ⟨ho, fun hsw => absurd hsw hno, trivial⟩ trivial ⟨rfl, hdone, hasync, hstart.resolve_left (by simp [hdone])⟩

/-- A routine ends by `brelse`. -/
theorem inv_brelse {k : BwriteRet} (hpc : s.pc p = .brelse bp k)
    (hs : s.runPiece swapdev p = some s') : s'.Inv := by
  obtain ⟨ho, hno, -⟩ := hpc ▸ h.procs p
  have hbuf := isBuf_of_own h hno ho.holder_eq
  simp only [runPiece, hpc] at hs
  obtain rfl := Option.some.inj hs
  exact inv_bwriteReturn h hcur hno
    (h.sound.release hbuf ho.holder_eq (ho.quiet bp (Or.inr List.mem_cons_self)))
    (ho.drop (List.subset_cons_self ..) (elsewhere_brelse bp) (by simp))

/-- `bflush` takes the first delayed buffer of the device. -/
theorem inv_bflush {dev : Dev} (hpc : s.pc p = .bflush dev)
    (hs : s.runPiece swapdev p = some s') : s'.Inv := by
  obtain ⟨ho, hno, -⟩ := hpc ▸ h.procs p
  simp only [runPiece, hpc] at hs
  split at hs
  · rename_i bp hfind
    obtain rfl := Option.some.inj hs
    obtain ⟨hbuf, havail⟩ := h.sound.free bp (List.mem_of_find?_eq_some hfind)
    have hq : bp ∉ s.queue := fun hmem => (h.sound.queue bp hmem).1 havail
    have htake := h.sound.take (p := p) hbuf havail
    have ho' := ho.take h.sound hbuf havail
    have hset := htake.sound.setFlags_own (update_self ..) hq
      (fun fl => { fl with b_async := true }) rfl (Kept.setFlags bp _ id id fun hx => absurd hx.2.2 hq)
    rw [Headers.setFlags_notavail]
    exact inv_goto h hcur hno (htake.trans hset) (ho'.stay (elsewhere_setFlags bp _) rfl
      (List.Subset.refl _) (List.Subset.refl _) (List.nil_subset _) (Or.inl List.mem_cons_self)
      (fun _ => hq) fun hmem => absurd hmem List.not_mem_nil) trivial
  · obtain rfl := Option.some.inj hs
    exact inv_leave h hcur hno (Piece.refl h.sound) ho

/-- `swap` takes its header, or sleeps until that is free. -/
theorem inv_swap {blkno : Dev} {rdflg : Bool} (hpc : s.pc p = .swap blkno rdflg)
    (hs : s.runPiece swapdev p = some s') : s'.Inv := by
  obtain ⟨ho, hno, -⟩ := hpc ▸ h.procs p
  simp only [runPiece, hpc] at hs
  split at hs
  · rename_i hbusy
    obtain rfl := Option.some.inj hs
    refine inv_sleep h hcur (h.sound.want .swbuf).toEffect ⟨?_, fun hsw => absurd hsw hno, trivial⟩
      trivial ⟨rfl, ?_⟩
    · exact ho.untouched (List.Subset.refl _) (List.Subset.refl _) (untouched_want .swbuf)
    · rw [Headers.Contended, Headers.setFlags_self]
      exact ⟨hbusy, rfl⟩
  · rename_i hfree
    obtain ⟨b, hb, rfl⟩ := Option.map_eq_some_iff.mp hs
    have havail : holder .swbuf = .avail := by
      by_contra hhold
      exact hfree ((h.sound.busy .swbuf (by simp)).mpr hhold)
    obtain ⟨holder', heffect, ho'⟩ := h.sound.swap ho havail
      (fun r hr => h.sound.nobody (by simp) havail (h.asleep r _ hr).2) _ _ rdflg hb
    exact inv_next h hcur heffect ⟨ho', fun _ => trivial, trivial⟩

/-- `swap` sleeps until the transfer is done. -/
theorem inv_swapWait (hpc : s.pc p = .swapWait) (hs : s.runPiece swapdev p = some s') :
    s'.Inv := by
  obtain ⟨ho, -, -⟩ := hpc ▸ h.procs p
  have hasync := ho.calm .swbuf (Or.inr List.mem_cons_self)
  have hsame := Piece.refl (p := p) h.sound
  simp only [runPiece, hpc] at hs
  split at hs
  · rename_i hdone
    obtain rfl := Option.some.inj hs
    -- a finished header is in no request
    have hq : .swbuf ∉ s.queue := by
      intro hmem
      rw [(h.sound.queue .swbuf hmem).2.1] at hdone
      cases hdone
    have ho' : Owns s.toHeaders holder p [.swbuf] [.swbuf] [.swbuf] (s.held p) :=
      ho.stay (elsewhere_refl .swbuf) rfl (List.nil_subset _) (List.Subset.refl _)
        (List.subset_cons_self ..) (Or.inl List.mem_cons_self) (fun _ => hq) fun _ => hasync
    split
    · -- wake up who waits for `swbuf`
      exact inv_next h hcur (hsame.toEffect.wakeup .swbuf)
        ⟨⟨ho'.own, ho'.nodup, ho'.started, ho'.quiet, ho'.calm⟩, fun _ => trivial,
          fun r => Headers.wakeup_p_wchan_ne .swbuf s.toHeaders r⟩
    · -- nobody does
      rename_i hwanted
      refine inv_next h hcur hsame.toEffect ⟨ho', fun _ => trivial, fun r hr => ?_⟩
      obtain ⟨-, hr⟩ := h.asleep r .swbuf hr
      have hcontended : ¬ s.Contended .swbuf := fun hx => hwanted hx.2
      have htransfer : ¬ s.InTransfer .swbuf := fun hx => hq hx.2.2
      exact Pc.Awaits.elim hr (by simp) hcontended htransfer
  -- not done: `p` sleeps on its own header
  · rename_i hdone
    rw [Bool.not_eq_true] at hdone
    obtain rfl := Option.some.inj hs
    have hstart := (ho.started .swbuf List.mem_cons_self).resolve_left List.not_mem_nil
    exact inv_sleep h hcur hsame.toEffect ⟨ho, fun _ => trivial, trivial⟩ trivial
      ⟨rfl, hdone, hasync, hstart.resolve_left (by simp [hdone])⟩

/-- `swap` gives its header up, and wakes those that wait for it. -/
theorem inv_swapClear (hpc : s.pc p = .swapClear) (hs : s.runPiece swapdev p = some s') :
    s'.Inv := by
  obtain ⟨ho, -, hnobody⟩ := hpc ▸ h.procs p
  simp only [runPiece, hpc] at hs
  obtain rfl := Option.some.inj hs
  have hown := ho.holder_eq
  obtain ⟨hclear, he⟩ := h.sound.setFlags_swbuf (ho.quiet .swbuf (Or.inr List.mem_cons_self))
    hnobody (p := p) (a := .avail) (fun r hr => by simpa [hown] using hr.symm)
    (fun fl => { fl with b_busy := false, b_wanted := false }) (Or.inl rfl) (by simp)
    (ho.calm .swbuf (Or.inr List.mem_cons_self))
  have hrun := h.run hcur hclear (k := .user)
    ⟨ho.drop (List.nil_subset _) he (by simp), fun hsw => by simp at hsw, trivial⟩
    (Or.inr ⟨rfl, trivial⟩)
  rw [update_eq_self] at hrun
  exact ⟨_, hrun⟩

/-- A piece of code keeps the invariant. -/
theorem inv_runPiece (hs : s.runPiece swapdev p = some s') : s'.Inv := by
  generalize hpc : s.pc p = k
  cases k with
  | user => simp [runPiece, hpc] at hs
  | getblk dev blkno k => exact inv_getblk h hcur hpc hs
  | getblkFound bp dev blkno k => exact inv_getblkFound h hcur hpc hs
  | getblkTake bp k => exact inv_getblkTake h hcur hpc hs
  | getblkAvail dev blkno k => exact inv_getblkAvail h hcur hpc hs
  | getblkOldest dev blkno k => exact inv_getblkOldest h hcur hpc hs
  | getblkReuse bp dev blkno k => exact inv_getblkReuse h hcur hpc hs
  | bread bp => exact inv_bread h hcur hpc hs
  | breada dev blkno rablkno => exact inv_breada h hcur hpc hs
  | breadaRead bp dev blkno rablkno => exact inv_breadaRead h hcur hpc hs
  | readahead dev blkno rablkno rbp => exact inv_readahead h hcur hpc hs
  | readaheadRead rabp dev blkno rbp => exact inv_readaheadRead h hcur hpc hs
  | bwrite bp k => exact inv_bwrite h hcur hpc hs
  | iowait bp k => exact inv_iowait h hcur hpc hs
  | brelse bp k => exact inv_brelse h hcur hpc hs
  | bflush dev => exact inv_bflush h hcur hpc hs
  | swap blkno rdflg => exact inv_swap h hcur hpc hs
  | swapWait => exact inv_swapWait h hcur hpc hs
  | swapClear => exact inv_swapClear h hcur hpc hs

end

omit [DecidableEq π] in
/-- A process outside of these routines is awake. -/
theorem awake_of_user (h : InvAt s holder) (hpc : s.pc p = .user) : s.p_wchan p = none := by
  by_contra hne
  obtain ⟨chan, hchan⟩ := Option.ne_none_iff_exists'.mp hne
  exact (hpc ▸ h.asleep p chan hchan).2

/-- A call of one of the routines by process `p`, which releases `bp`. -/
theorem inv_releasing (h : InvAt s holder) (hcur : s.cur = none) (hpc : s.pc p = .user)
    (hbp : bp ∈ s.held p) {c : Call} (hc : c.releases = some bp) :
    (enter p c { s with held := update s.held p ((s.held p).erase bp) }).Inv := by
  obtain ⟨ho, hno, -⟩ := hpc ▸ h.procs p
  have hown : holder bp = .proc p := (ho.own bp).mpr (Or.inl hbp)
  have hq : bp ∉ s.queue := ho.quiet bp (Or.inl hbp)
  have hasync := ho.calm bp (Or.inl hbp)
  have hnodup : (s.held p).Nodup := ho.nodup
  -- the buffer is in hand now
  have hmem : ∀ x, x ∈ (s.held p).erase bp ∨ x ∈ [bp] ↔ x ∈ s.held p := by
    intro x
    rw [hnodup.mem_erase_iff, List.mem_singleton]
    by_cases hx : x = bp
    · simp [hx, hbp]
    · simp [hx]
  have hhand : Owns s.toHeaders holder p [bp] [bp] [bp] ((s.held p).erase bp) := by
    refine ⟨fun x => ?_, ?_, fun x hx => Or.inl hx,
      fun x hx => ho.quiet x (Or.inl ((hmem x).mp hx)), fun x hx => ho.calm x (Or.inl ((hmem x).mp hx))⟩
    · rw [ho.own x, hmem x]
      exact or_iff_left List.not_mem_nil
    · exact List.nodup_cons.mpr ⟨hnodup.not_mem_erase, hnodup.erase bp⟩
  have hset : ∀ f : BFlags → BFlags, (f (s.b_flags bp)).b_busy = (s.b_flags bp).b_busy →
      (f (s.b_flags bp)).b_wanted = (s.b_flags bp).b_wanted →
      Piece p s.toHeaders holder (s.setFlags bp f) holder := fun f hbusy hwanted =>
    h.sound.setFlags_own hown hq f hbusy (Kept.setFlags bp f (fun hb => hbusy.trans hb)
      (fun hw => hwanted.trans hw) fun hx => absurd hx.2.2 hq)
  have hgo : ∀ {b : Headers π} {k : Pc}, Piece p s.toHeaders holder b holder →
      Owns b holder p k.hand k.quiet k.calm ((s.held p).erase bp) → k.Knows b holder →
      (Sys.mk b (update s.pc p k) (update s.held p ((s.held p).erase bp)) (some p)).Inv :=
    fun hpiece ho' hknows => ⟨holder, h.run (Or.inr ⟨hcur, awake_of_user h hpc⟩) hpiece.toEffect
      ⟨ho', fun hsw => absurd hsw (hpiece.swbuf hno), hknows⟩ (Or.inl rfl)⟩
  cases c with
  | bwrite x =>
    obtain rfl : x = bp := Option.some.inj hc
    refine hgo (k := .bwrite x .user) (Piece.refl h.sound) ?_ trivial
    exact ⟨hhand.own, hhand.nodup, hhand.started, hhand.quiet,
      fun y hy => hhand.calm y (hy.imp_right fun hy => absurd hy List.not_mem_nil)⟩
  | bawrite x =>
    obtain rfl : x = bp := Option.some.inj hc
    refine hgo (k := .bwrite x .user) (hset (fun fl => { fl with b_async := true }) rfl rfl) ?_
      trivial
    exact hhand.stay (elsewhere_setFlags x _) rfl (List.Subset.refl _) (List.Subset.refl _)
      (List.nil_subset _) (Or.inl List.mem_cons_self) (fun _ => hq)
      fun hmem => absurd hmem List.not_mem_nil
  | bdwrite x =>
    obtain rfl : x = bp := Option.some.inj hc
    refine hgo (k := .brelse x .user)
      (hset (fun fl => { fl with b_delwri := true, b_done := true }) rfl rfl) ?_ trivial
    refine hhand.stay (elsewhere_setFlags x _) rfl (List.Subset.refl _) (List.Subset.refl _)
      (List.subset_cons_self ..) (Or.inl List.mem_cons_self) (fun _ => hq) fun _ => ?_
    rw [Headers.setFlags_self]
    exact hasync
  | brelse x =>
    obtain rfl : x = bp := Option.some.inj hc
    exact hgo (k := .brelse x .user) (Piece.refl h.sound) hhand trivial
  | _ => cases hc

/-- A call that releases nothing. -/
theorem inv_entering (h : InvAt s holder) (hcur : s.cur = none) (hpc : s.pc p = .user) {c : Call}
    (hc : c.releases = none) : (enter p c s).Inv := by
  obtain ⟨ho, hno, -⟩ := hpc ▸ h.procs p
  have hawake : s.cur = some p ∨ s.cur = none ∧ s.p_wchan p = none :=
    Or.inr ⟨hcur, awake_of_user h hpc⟩
  have hsame := Piece.refl (p := p) h.sound
  cases c with
  | getblk dev blkno => exact inv_goto h hawake hno hsame ho trivial
  | bread dev blkno => exact inv_goto h hawake hno hsame ho trivial
  | breada dev blkno rablkno => exact inv_goto h hawake hno hsame ho trivial
  | bflush dev => exact inv_goto h hawake hno hsame ho trivial
  | swap blkno rdflg => exact inv_goto h hawake hno hsame ho trivial
  | _ => cases hc

/-- Every step keeps the invariant. -/
theorem Inv.step (h : s.Inv) {a : Act π} (hs : s.step swapdev a = some s') : s'.Inv := by
  obtain ⟨holder, h⟩ := h
  cases a with
  | call p c =>
    simp only [Sys.step] at hs
    split at hs
    · rename_i hcur hpc
      obtain ⟨s₁, hgive, rfl⟩ := Option.map_eq_some_iff.mp hs
      unfold giveUp at hgive
      split at hgive
      · rename_i hc
        obtain rfl := Option.some.inj hgive
        exact inv_entering h hcur hpc hc
      · rename_i bp hc
        split at hgive
        · rename_i hbp
          obtain rfl := Option.some.inj hgive
          exact inv_releasing h hcur hpc hbp hc
        · cases hgive
    · cases hs
  | run p =>
    simp only [Sys.step] at hs
    split at hs
    · rename_i hrun
      exact inv_runPiece h hrun hs
    · cases hs
  | intr =>
    obtain rfl := Option.some.inj hs
    obtain ⟨holder', hsound, hkept, huntouched, havail⟩ := h.sound.rkintr
    refine ⟨holder', hsound, fun r => ?_, h.parked, fun r chan hr => ?_⟩
    · obtain ⟨ho, hswaps, hknows⟩ := h.procs r
      refine ⟨ho.untouched (Pc.quiet_subset_hand _) (Pc.calm_subset_hand _) (huntouched r),
        fun hsw => hswaps ((huntouched r .swbuf).1.mp hsw), ?_⟩
      -- nobody falls asleep, and what is available stays so
      have hnobody : ∀ chan, (∀ q, s.p_wchan q ≠ some chan) → ∀ q, s.rkintr.p_wchan q ≠ some chan :=
        fun chan hnone q hq => hnone q (hkept.wchan q chan hq)
      change (s.pc r).Knows s.rkintr holder'
      generalize s.pc r = k at hknows
      cases k with
      | getblkTake x k => exact ⟨hknows.1, havail x hknows.2⟩
      | getblkReuse x dev blkno k => exact hnobody x hknows
      | swapClear => exact hnobody .swbuf hknows
      | _ => exact hknows
    · obtain ⟨hcur, hawaits⟩ := h.asleep r chan (hkept.wchan r chan hr)
      exact ⟨hcur, hkept.awaits hr hawaits⟩

/-! ## Runs -/

omit [DecidableEq π] in
/-- One turn of the loop of `binit`. -/
theorem binitBuf_eq {b : Headers π} (hflags : ∀ x, b.b_flags x = {}) (bp : Hdr) :
    b.binitBuf bp = { b with b_dev := update b.b_dev bp (-1), avail := b.avail ++ [bp] } := by
  have hfree : (update b.b_flags bp { b_busy := true } .bfreelist).b_wanted = false := by
    by_cases hbp : bp = .bfreelist
    · rw [hbp, update_self]
    · rw [update_of_ne (Ne.symm hbp), hflags]
  have hself : update b.b_flags bp {} = b.b_flags := by
    funext x
    by_cases hx : x = bp
    · rw [hx, update_self, hflags]
    · rw [update_of_ne hx]
  simp [Headers.binitBuf, Headers.brelse, Headers.setFlags, hfree, hself]

omit [DecidableEq π] in
/-- The loop of `binit` makes all buffers available. -/
theorem foldl_binitBuf (l : List Hdr) {b : Headers π} (hflags : ∀ x, b.b_flags x = {}) :
    ∃ dev, l.foldl Headers.binitBuf b = { b with b_dev := dev, avail := b.avail ++ l } := by
  induction l generalizing b with
  | nil => exact ⟨b.b_dev, by simp⟩
  | cons bp l ih =>
    rw [List.foldl_cons, binitBuf_eq hflags]
    obtain ⟨dev, hdev⟩ := ih (b := { b with
      b_dev := update b.b_dev bp (-1), avail := b.avail ++ [bp] }) hflags
    refine ⟨dev, hdev.trans ?_⟩
    rw [List.append_assoc, List.singleton_append]

omit [DecidableEq π] in
theorem inv_boot : (boot : Sys π).Inv := by
  obtain ⟨dev, hdev⟩ := foldl_binitBuf ((List.finRange NBUF).map Hdr.buf)
    (b := (Headers.zeroed : Headers π)) fun _ => rfl
  have hboot : (Headers.zeroed : Headers π).binit =
      { (Headers.zeroed : Headers π) with
        b_dev := dev, avail := (List.finRange NBUF).map Hdr.buf } := hdev
  unfold boot
  rw [hboot]
  have havail : ∀ x ∈ (List.finRange NBUF).map Hdr.buf, x.IsBuf := by
    intro x hx
    obtain ⟨n, -, rfl⟩ := List.mem_map.mp hx
    trivial
  have hnodup : ((List.finRange NBUF).map Hdr.buf).Nodup :=
    (List.nodup_finRange NBUF).map fun _ _ h => Hdr.buf.inj h
  -- all buffers are free, and nobody sleeps
  refine ⟨fun _ => .avail, ⟨⟨hnodup, fun x hx => ⟨havail x hx, rfl⟩, fun x hx => ?_, rfl, by simp,
    fun x _ => by simp [Headers.zeroed], fun _ _ _ => rfl, List.nodup_nil, fun x hx => ?_⟩,
    fun x hx => ?_, ?_⟩, fun p => ⟨⟨fun x => ?_, List.nodup_nil, fun x hx => ?_, fun x hx => ?_,
    fun x hx => rfl⟩, ?_, trivial⟩, fun _ _ => trivial, fun p chan hp => ?_⟩
  · cases hx
  · cases hx
  · cases hx
  · simp [Headers.zeroed]
  · simp [Pc.hand]
  · cases hx
  · simp [Headers.zeroed]
  · simp
  · cases hp

/-- No wakeup is lost: a process that is asleep, in whatever reachable state, is in `getblk`,
`iowait` or `swap`, and what it waits for is still to come. -/
theorem no_lost_wakeup {s : Sys π} (hs : Reachable (step swapdev) (fun _ _ => True) boot s)
    {p : π} {chan : Hdr} (hp : s.p_wchan p = some chan) :
    (s.pc p).Awaits s.toHeaders chan := by
  obtain ⟨holder, h⟩ : s.Inv :=
    hs.invariant inv_boot fun _ _ _ h _ hstep => h.step hstep
  exact (h.asleep p chan hp).2

/-- One process waits for the end of its transfer, and another one for `swbuf`. -/
def swapTwice : List (Act Bool) :=
  [.call true (.swap 5 true), .run true, .run true, .call false (.swap 9 false), .run false]

/-- Two processes swap at once, and one waits for the other. -/
theorem no_lost_wakeup_swapTwice : ∃ s : Sys Bool,
    runSteps (step 0) swapTwice boot = some s ∧
      (s.pc true).Awaits s.toHeaders .swbuf ∧ (s.pc false).Awaits s.toHeaders .swbuf := by
  have hrun : (runSteps (step 0) swapTwice boot).any (fun s : Sys Bool =>
      s.p_wchan true = some .swbuf ∧ s.p_wchan false = some .swbuf) = true := by
    decide +kernel
  obtain ⟨s, hs, hp⟩ := (Option.any_eq_true _ _).mp hrun
  obtain ⟨htrue, hfalse⟩ := of_decide_eq_true hp
  have hreach := Reachable.refl.of_runSteps hs
  exact ⟨s, hs, no_lost_wakeup hreach htrue, no_lost_wakeup hreach hfalse⟩

end Sys

end UnixV6.BufWait
