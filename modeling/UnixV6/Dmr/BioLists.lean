import UnixV6.Dmr.Bio

/-!
# The lists of buffers

`Cached` says which lists the links of the headers make up, and what the flags have to do with them:
each buffer is on the ring of its device, on the available list exactly if it is not busy, and
perhaps in the disk queue. `holder` tells who has a busy buffer: a process, or an asynchronous
transfer. There is one lemma for each routine that edits the lists.
-/

open Function

namespace UnixV6

variable {π β : Type} {clean : Prop}

/-- Who has a buffer. -/
inductive Holder (π : Type)
  | avail
  /-- An asynchronous transfer. -/
  | io
  | proc (p : π)

/-- A device number that stands for a device: the minor number 0377 is what `brelse` gives to a
buffer after an error, if it is not `clean` of errors. -/
def Assoc (clean : Prop) (dev : Dev) : Prop :=
  dev.slt 0 = false ∧ (dev &&& 0xff = 0xff → clean)

/-- The list that a buffer with device `dev` is on. -/
def tabOf (dev : Dev) : Ptr :=
  if dev.slt 0 then .bfreelist else .rktab

/-- A head of a list. -/
def Ptr.IsHead (h : Ptr) : Prop :=
  h = .bfreelist ∨ h = .rktab

/-- What the flags of a header say about the lists it is on. -/
structure BufOk (clean : Prop) (bp : Ptr) (fl : BFlags) (onAvail onQueue : Prop)
    (holder : Holder π) : Prop where
  avail : onAvail ↔ bp.IsBuf ∧ fl.b_busy = false
  queue : onQueue → bp.IsBuf ∧ fl.b_busy = true ∧ fl.b_done = false ∧
    (fl.b_async = true ↔ holder = .io)
  error : bp.IsBuf → fl.b_error = true → fl.b_done = true ∧ ¬ clean
  calm : bp.IsBuf → fl.b_busy = false → fl.b_async = false
  holder : holder = .avail ↔ (bp.IsBuf → fl.b_busy = false)

/-- The lists of the headers, and the flags of the buffers on them. -/
structure Cached (clean : Prop) (s : Bio π β) (ring : Ptr → List Ptr) (la q : List Ptr) (holder : Ptr → Holder π) :
    Prop where
  rings : ∀ h : Ptr, h.IsHead → LinkRing s.b_forw s.b_back h (ring h)
  mem_ring : ∀ h : Ptr, h.IsHead → ∀ bp, bp ∈ ring h ↔ bp.IsBuf ∧ tabOf (s.b_dev bp) = h
  avail : LinkRing s.av_forw s.av_back .bfreelist la
  queue : LinkQueue s.av_forw .null s.d_actf s.d_actl q
  bufs : ∀ bp, BufOk clean bp (s.b_flags bp) (bp ∈ la) (bp ∈ q) (holder bp)
  unique : ∀ bp bp' : Ptr, bp.IsBuf → bp'.IsBuf → Assoc clean (s.b_dev bp) → s.b_dev bp = s.b_dev bp' →
    s.b_blkno bp = s.b_blkno bp' → bp = bp'

/-- No buffer is associated with the block. -/
def Fresh (clean : Prop) (s : Bio π β) (dev blkno : Dev) : Prop :=
  Assoc clean dev → ∀ bp : Ptr, bp.IsBuf → ¬ (s.b_dev bp = dev ∧ s.b_blkno bp = blkno)

/-! ## Heads and devices -/

theorem devtab_eq {dev : Dev} {dp : Ptr} (h : Bio.devtab dev = some dp) : dp = .rktab := by
  unfold Bio.devtab at h
  split at h
  · cases h
  · exact (Option.some.inj h).symm

/-- The list that `getblk` takes for a device. -/
theorem getblkTab_eq {dev : Dev} {dp : Ptr} (h : Bio.getblkTab dev = some dp) : dp = tabOf dev := by
  unfold Bio.getblkTab at h
  unfold tabOf
  split at h
  · rename_i hneg
    rw [if_pos hneg]
    exact (Option.some.inj h).symm
  · rename_i hneg
    rw [if_neg hneg]
    exact devtab_eq h

theorem Ptr.IsBuf.not_isHead {bp : Ptr} (h : bp.IsBuf) : ¬ bp.IsHead := by
  rintro (rfl | rfl) <;> exact h

theorem Ptr.IsBuf.ne_null {bp : Ptr} (h : bp.IsBuf) : bp ≠ .null := by
  rintro rfl
  exact h

theorem Ptr.IsBuf.ne_bfreelist {bp : Ptr} (h : bp.IsBuf) : bp ≠ .bfreelist := by
  rintro rfl
  exact h

theorem Ptr.isHead_tabOf (dev : Dev) : (tabOf dev).IsHead := by
  unfold tabOf
  split
  · exact Or.inl rfl
  · exact Or.inr rfl

/-- There are no more than `NBUF` buffers. -/
theorem Ptr.length_le_of_isBuf {l : List Ptr} (hnodup : l.Nodup) (hl : ∀ x ∈ l, x.IsBuf) :
    l.length ≤ NBUF := by
  have hsub : l ⊆ (List.finRange NBUF).map Ptr.buf := by
    intro x hx
    match x, hl x hx with
    | .buf n, _ => simp
  have := (List.subperm_of_subset hnodup hsub).length_le
  simpa using this

/-- After an error a buffer stays on its list. -/
theorem tabOf_error (dev : Dev) : tabOf (dev ||| 0xff) = tabOf dev := by
  have hslt : (dev ||| 0xff).slt 0#16 = dev.slt 0#16 := by
    have hmsb : (0xff : Dev).msb = false := by decide
    rw [BitVec.slt_zero_eq_msb, BitVec.slt_zero_eq_msb, BitVec.msb_or, hmsb, Bool.or_false]
  unfold tabOf
  simp only [BitVec.ofNat_eq_ofNat] at hslt ⊢
  simp only [hslt]

theorem clean_of_assoc_error {dev : Dev} (h : Assoc clean (dev ||| 0xff)) : clean := by
  apply h.2
  ext i
  simp
  tauto

/-- The flags of a head say nothing. -/
theorem BufOk.head {bp : Ptr} {fl fl' : BFlags} {onAvail onQueue : Prop} {holder : Holder π}
    (h : BufOk clean bp fl onAvail onQueue holder) (hbp : ¬ bp.IsBuf) :
    BufOk clean bp fl' onAvail onQueue holder := by
  refine ⟨?_, fun hq => absurd (h.queue hq).1 hbp, fun hbuf => absurd hbuf hbp,
    fun hbuf => absurd hbuf hbp, ?_⟩
  · rw [h.avail]
    simp [hbp]
  · rw [h.holder]
    simp [hbp]

/-- Flags that leave a buffer on the lists where it is. -/
theorem BufOk.flags {bp : Ptr} {fl fl' : BFlags} {onAvail onQueue : Prop} {holder : Holder π}
    (h : BufOk clean bp fl onAvail onQueue holder) (hbusy : fl'.b_busy = fl.b_busy)
    (herror : fl'.b_error = true → fl'.b_done = true ∧ ¬ clean)
    (hcalm : fl.b_busy = false → fl'.b_async = false)
    (hqueue : onQueue → fl'.b_done = false ∧ fl'.b_async = fl.b_async) :
    BufOk clean bp fl' onAvail onQueue holder := by
  refine ⟨?_, fun hq => ?_, fun _ => herror, fun _ hfree => hcalm (hbusy ▸ hfree), ?_⟩
  · rw [h.avail, hbusy]
  · obtain ⟨hbuf, hb, -, hasync⟩ := h.queue hq
    rw [hbusy, (hqueue hq).2]
    exact ⟨hbuf, hb, (hqueue hq).1, hasync⟩
  · rw [h.holder, hbusy]

namespace Cached

variable {s : Bio π β} {ring : Ptr → List Ptr} {la q : List Ptr} {holder : Ptr → Holder π} {bp : Ptr}

/-- A buffer that is not available is one of the buffers proper. -/
theorem isBuf_of_holder {b : Ptr} (h : Cached clean s ring la q holder) (hb : holder b ≠ .avail) :
    b.IsBuf := by
  by_contra hnot
  exact hb ((h.bufs b).holder.mpr fun hbuf => absurd hbuf hnot)

/-- A buffer that is not available is busy. -/
theorem busy_of_holder {b : Ptr} (h : Cached clean s ring la q holder) (hb : holder b ≠ .avail) :
    (s.b_flags b).b_busy = true := by
  by_contra hnot
  exact hb ((h.bufs b).holder.mpr fun _ => by simpa using hnot)

/-- The lists of devices have buffers proper only. -/
theorem isBuf_of_mem_ring (h : Cached clean s ring la q holder) {t : Ptr} (ht : t.IsHead)
    (hbp : bp ∈ ring t) : bp.IsBuf :=
  ((h.mem_ring t ht bp).mp hbp).1

/-- An available buffer has no request. -/
theorem notMem_queue_of_avail (h : Cached clean s ring la q holder) (hbp : bp ∈ la) : bp ∉ q := by
  intro hq
  have hbusy := ((h.bufs bp).queue hq).2.1
  rw [((h.bufs bp).avail.mp hbp).2] at hbusy
  cases hbusy

/-- Before its transfer is done a buffer has no error. -/
theorem error_eq_false (h : Cached clean s ring la q holder) (hbuf : bp.IsBuf)
    (hdone : (s.b_flags bp).b_done = false) : (s.b_flags bp).b_error = false := by
  by_contra herror
  rw [Bool.not_eq_false] at herror
  rw [((h.bufs bp).error hbuf herror).1] at hdone
  cases hdone

/-- What the processes sleep on does not matter. -/
theorem wchan (h : Cached clean s ring la q holder) (w : π → Option Ptr) :
    Cached clean { s with p_wchan := w } ring la q holder :=
  ⟨h.1, h.2, h.3, h.4, h.5, h.6⟩

/-- Sleepers do not matter. -/
theorem wakeup (h : Cached clean s ring la q holder) (chan : Ptr) :
    Cached clean (s.wakeup chan) ring la q holder :=
  h.wchan _

/-- The flags of a head do not matter. -/
theorem setFlags_head {b : Ptr} (h : Cached clean s ring la q holder) (hb : ¬ b.IsBuf)
    (f : BFlags → BFlags) : Cached clean (s.setFlags b f) ring la q holder := by
  refine ⟨h.1, h.2, h.3, h.4, fun x => ?_, h.6⟩
  by_cases hx : x = b
  · subst hx
    exact (h.bufs x).head hb
  · rw [Bio.setFlags_of_ne hx]
    exact h.bufs x

/-- Flags of one buffer that leave it where it is. -/
theorem setFlags (h : Cached clean s ring la q holder) (f : BFlags → BFlags)
    (hbusy : (f (s.b_flags bp)).b_busy = (s.b_flags bp).b_busy)
    (herror : (f (s.b_flags bp)).b_error = true →
      (f (s.b_flags bp)).b_done = true ∧ ¬ clean)
    (hcalm : (s.b_flags bp).b_busy = false → (f (s.b_flags bp)).b_async = false)
    (hqueue : bp ∈ q → (f (s.b_flags bp)).b_done = false ∧
      (f (s.b_flags bp)).b_async = (s.b_flags bp).b_async) :
    Cached clean (s.setFlags bp f) ring la q holder := by
  refine ⟨h.1, h.2, h.3, h.4, fun x => ?_, h.6⟩
  by_cases hx : x = bp
  · subst hx
    rw [Bio.setFlags_self]
    exact (h.bufs x).flags hbusy herror hcalm hqueue
  · rw [Bio.setFlags_of_ne hx]
    exact h.bufs x

/-! ## `notavail` -/

/-- The links of the available list without `bp`, as `notavail` leaves them. -/
theorem avail_unlink (h : Cached clean s ring la q holder) (hbp : bp ∈ la) :
    LinkRing (s.notavail bp).av_forw (s.notavail bp).av_back .bfreelist (la.erase bp) := by
  have hback : s.av_back bp ≠ bp := h.avail.prev_ne hbp
  have hforw : update s.av_forw (s.av_back bp) (s.av_forw bp) bp = s.av_forw bp :=
    update_of_ne hback.symm ..
  simp only [Bio.notavail, Bio.setFlags, hforw]
  exact h.avail.unlink hbp

/-- A buffer is taken off the available list by process `p`. -/
theorem notavail (h : Cached clean s ring la q holder) (hbp : bp ∈ la) (p : π) :
    Cached clean (s.notavail bp) ring (la.erase bp) q (update holder bp (.proc p)) := by
  obtain ⟨hbuf, hfree⟩ := (h.bufs bp).avail.mp hbp
  have hnq := h.notMem_queue_of_avail hbp
  refine ⟨h.1, h.2, h.avail_unlink hbp, ?_, fun x => ?_, h.6⟩
  · -- the link that is changed belongs to the available list, the queue is of busy buffers
    apply h.queue.congr
    intro y hy
    apply update_of_ne
    rintro rfl
    obtain ⟨hybuf, hybusy, -⟩ := (h.bufs _).queue hy
    rcases List.mem_cons.mp (h.avail.next_prev (List.mem_cons_of_mem _ hbp)).1 with heq | hmem
    · exact hybuf.ne_bfreelist heq
    · rw [((h.bufs _).avail.mp hmem).2] at hybusy
      cases hybusy
  · by_cases hx : x = bp
    · subst hx
      have hnot : x ∉ la.erase x := h.avail.nodup_tail.not_mem_erase
      simp only [Bio.notavail, Bio.setFlags, update_self]
      refine ⟨?_, fun hq => absurd hq hnq, (h.bufs x).error, fun _ hb => by simp at hb, ?_⟩
      · simp [hnot]
      · simp [hbuf]
    · have hmem : x ∈ la.erase bp ↔ x ∈ la := List.mem_erase_of_ne hx
      simp only [Bio.notavail, Bio.setFlags, update_of_ne hx, hmem]
      exact h.bufs x

/-! ## `brelse` -/

/-- A busy buffer is not on the available list. -/
theorem notMem_avail_of_busy (h : Cached clean s ring la q holder) (hbuf : bp.IsBuf)
    (hbusy : (s.b_flags bp).b_busy = true) : bp ∉ .bfreelist :: la := by
  intro hmem
  rcases List.mem_cons.mp hmem with heq | hmem
  · exact hbuf.ne_bfreelist heq
  · rw [((h.bufs bp).avail.mp hmem).2] at hbusy
    cases hbusy

/-- A buffer with a request is not on the available list. -/
theorem notMem_avail_of_queue (h : Cached clean s ring la q holder) (hbp : bp ∈ q) :
    bp ∉ .bfreelist :: la := by
  obtain ⟨hbuf, hbusy, -⟩ := (h.bufs bp).queue hbp
  exact h.notMem_avail_of_busy hbuf hbusy

/-- A busy buffer is put at the end of the available list. -/
theorem brelse (h : Cached clean s ring la q holder) (hbuf : bp.IsBuf)
    (hbusy : (s.b_flags bp).b_busy = true) (hq : bp ∉ q) :
    Cached clean (s.brelse bp) ring (la ++ [bp]) q (update holder bp .avail) := by
  have hnew := h.notMem_avail_of_busy hbuf hbusy
  refine ⟨?_, fun t ht x => ?_, ?_, ?_, fun x => ?_, fun x y hx hy hassoc hdev hblk => ?_⟩
  · rw [Bio.brelse_b_forw, Bio.brelse_b_back]
    exact h.rings
  · rw [h.mem_ring t ht x]
    rcases Bio.brelse_b_dev bp s x with hdev | ⟨-, -, hdev⟩
    · rw [hdev]
    · rw [hdev, tabOf_error]
  · rw [Bio.brelse_av_forw, Bio.brelse_av_back]
    exact h.avail.link_last hnew
  · rw [Bio.brelse_av_forw, Bio.brelse_d_actf, Bio.brelse_d_actl]
    apply h.queue.congr
    intro y hy
    -- neither the last available buffer nor `bp` is queued
    have hlast : y ≠ s.av_back .bfreelist := by
      rintro rfl
      exact h.notMem_avail_of_queue hy (h.avail.next_prev List.mem_cons_self).1
    rw [update_of_ne (ne_of_mem_of_not_mem hy hq), update_of_ne hlast]
  · by_cases hx : x = bp
    · subst hx
      rw [Bio.brelse_flags_self hbuf.ne_bfreelist, update_self]
      exact ⟨by simp [hbuf], fun hmem => absurd hmem hq, (h.bufs x).error, fun _ _ => rfl,
        by simp⟩
    · have hmem : x ∈ la ++ [bp] ↔ x ∈ la := by simp [hx]
      rw [update_of_ne hx, hmem]
      by_cases hhead : x = .bfreelist
      · apply (h.bufs x).head
        rw [hhead]
        exact id
      · rw [Bio.brelse_flags_of_ne hx hhead]
        exact h.bufs x
  · have hold : ∀ {z}, Assoc clean ((s.brelse bp).b_dev z) →
        (s.brelse bp).b_dev z = s.b_dev z := by
      intro z hz
      rcases Bio.brelse_b_dev bp s z with hdev | ⟨herror, -, hdev⟩
      · exact hdev
      · rw [hdev] at hz
        exact absurd (clean_of_assoc_error hz) ((h.bufs bp).error hbuf herror).2
    have hassoc' : Assoc clean ((s.brelse bp).b_dev y) := hdev ▸ hassoc
    rw [hold hassoc, hold hassoc'] at hdev
    rw [hold hassoc] at hassoc
    rw [Bio.brelse_b_blkno] at hblk
    exact h.unique x y hx hy hassoc hdev hblk

/-! ## The disk queue -/

/-- The end of a transfer of a buffer that is not queued any more. -/
theorem iodone (h : Cached clean (s.setFlags bp fun fl => { fl with b_done := true }) ring la q holder)
    (hbuf : bp.IsBuf) (hbusy : (s.b_flags bp).b_busy = true) (hq : bp ∉ q) :
    if (s.b_flags bp).b_async then
      Cached clean (s.iodone bp) ring (la ++ [bp]) q (update holder bp .avail)
    else Cached clean (s.iodone bp) ring la q holder := by
  have hasync : ((s.setFlags bp fun fl => { fl with b_done := true }).b_flags bp).b_async =
      (s.b_flags bp).b_async := by
    rw [Bio.setFlags_self]
  unfold Bio.iodone
  dsimp only
  rw [hasync]
  by_cases ha : (s.b_flags bp).b_async = true
  · rw [if_pos ha, if_pos ha]
    exact h.brelse hbuf (by rwa [Bio.setFlags_self]) hq
  · rw [if_neg ha, if_neg ha]
    refine (h.setFlags _ rfl ?_ ?_ fun hmem => absurd hmem hq).wakeup bp
    · exact (h.bufs bp).error hbuf
    · simp [hbusy]

/-- The blocks themselves do not matter. -/
theorem blocks (h : Cached clean s ring la q holder) (n : ℕ) (data : Ptr → β)
    (disk : BitVec 16 → β) :
    Cached clean { s with d_active := n, data := data, disk := disk } ring la q holder :=
  ⟨h.1, h.2, h.3, h.4, h.5, h.6⟩

/-- The contents of a buffer do not matter. -/
theorem fetch (h : Cached clean s ring la q holder) (bp : Ptr) :
    Cached clean (s.fetch bp) ring la q holder := by
  unfold Bio.fetch
  split
  · exact h.blocks s.d_active _ s.disk
  · exact h

/-- The start of a request changes no list. -/
theorem rkstart (h : Cached clean s ring la q holder) : Cached clean s.rkstart ring la q holder := by
  unfold Bio.rkstart Bio.devstart
  split_ifs
  · exact h
  · exact h.blocks _ s.data s.disk
  · exact h.blocks _ s.data _

/-- A buffer is put in the queue of the disk. -/
theorem rkstrategy_queued (h : Cached clean s ring la q holder)
    (hok : Bio.rkRejects (s.b_dev bp) (s.b_blkno bp) = false) {p : π} (hbp : holder bp = .proc p)
    (hq : bp ∉ q) (hdone : (s.b_flags bp).b_done = false) :
    Cached clean (s.rkstrategy bp) ring la (q ++ [bp])
      (if (s.b_flags bp).b_async then update holder bp .io else holder) := by
  have hne : holder bp ≠ .avail := by simp [hbp]
  have hbuf := h.isBuf_of_holder hne
  have hbusy := h.busy_of_holder hne
  have hnew := h.notMem_avail_of_busy hbuf hbusy
  have hbp' : bp ∉ .null :: q := by
    rw [List.mem_cons]
    exact not_or.mpr ⟨hbuf.ne_null, hq⟩
  -- the links, with the two ways to put a buffer behind the last one
  have hlinks : ∃ f a, LinkQueue f .null a bp (q ++ [bp]) ∧
      LinkRing f s.av_back .bfreelist la ∧
      ∃ n k, s.rkstrategy bp =
        { s with av_forw := f, d_actf := a, d_actl := bp, d_active := n, disk := k } := by
    have havail : ∀ y ∈ Ptr.bfreelist :: la, update s.av_forw bp .null y = s.av_forw y :=
      fun y hy => update_of_ne (ne_of_mem_of_not_mem hy hnew) ..
    by_cases hempty : q = []
    · have hnull : s.d_actf = .null := h.queue.first_eq_null_iff.mpr hempty
      refine ⟨_, bp, ?_, h.avail.congr havail fun _ _ => rfl, ?_⟩
      · rw [hempty]
        exact LinkQueue.push_nil hbuf.ne_null
      · unfold Bio.rkstrategy Bio.rkstart Bio.devstart
        simp only [hok, hnull, Bool.false_eq_true, if_false, if_true]
        split_ifs <;> exact ⟨_, _, rfl⟩
    · have hnull : s.d_actf ≠ .null := mt h.queue.first_eq_null_iff.mp hempty
      refine ⟨_, s.d_actf, h.queue.push hempty hbp', h.avail.congr ?_ fun _ _ => rfl, ?_⟩
      · intro y hy
        have hlast : s.d_actl ∈ q := by
          obtain ⟨m, z, hz⟩ := q.eq_nil_or_concat'.resolve_left hempty
          have heq := h.queue.last_eq z (by simp [hz])
          rw [← heq, hz]
          simp
        rw [update_of_ne, havail y hy]
        rintro rfl
        exact h.notMem_avail_of_queue hlast hy
      · unfold Bio.rkstrategy Bio.rkstart Bio.devstart
        simp only [hok, hnull, Bool.false_eq_true, if_false]
        split_ifs <;> exact ⟨_, _, rfl⟩
  obtain ⟨f, a, hqueue, havail, n, k, hs⟩ := hlinks
  rw [hs]
  refine ⟨h.1, h.2, havail, hqueue, fun x => ?_, h.6⟩
  by_cases hx : x = bp
  · subst hx
    have hold := h.bufs x
    by_cases ha : (s.b_flags x).b_async = true
    · rw [if_pos ha, update_self]
      refine ⟨hold.avail, fun _ => ⟨hbuf, hbusy, hdone, by simp [ha]⟩, hold.error, hold.calm, ?_⟩
      simp [hbuf, hbusy]
    · rw [if_neg ha]
      exact ⟨hold.avail, fun _ => ⟨hbuf, hbusy, hdone, by simp [ha, hbp]⟩, hold.error, hold.calm,
        hold.holder⟩
  · have hmem : x ∈ q ++ [bp] ↔ x ∈ q := by simp [hx]
    have hholder : (if (s.b_flags bp).b_async then update holder bp .io else holder) x =
        holder x := by
      split
      · rw [update_of_ne hx]
      · rfl
    rw [hmem, hholder]
    exact h.bufs x

/-- The first buffer of the queue is taken off it. -/
theorem pop (h : Cached clean s ring la (bp :: q) holder) (n : ℕ) :
    Cached clean { s with d_active := n, d_actf := s.av_forw bp } ring la q holder := by
  refine ⟨h.1, h.2, h.3, h.queue.pop, fun x => ?_, h.6⟩
  have hold := h.bufs x
  exact ⟨hold.avail, fun hx => hold.queue (List.mem_cons_of_mem _ hx), hold.error, hold.calm,
    hold.holder⟩

/-- The interrupt of the disk, with a request in its queue. -/
theorem rkintr_cons (h : Cached clean s ring la (bp :: q) holder) (hactive : s.d_active ≠ 0) :
    if (s.b_flags bp).b_async then
      Cached clean s.rkintr ring (la ++ [bp]) q (update holder bp .avail)
    else Cached clean s.rkintr ring la q holder := by
  obtain ⟨hbuf, hbusy, hdone, -⟩ := (h.bufs bp).queue List.mem_cons_self
  have hq : bp ∉ q := (List.nodup_cons.mp (List.nodup_cons.mp h.queue.nodup).2).1
  have hfirst : s.d_actf = bp := h.queue.first_cons
  have hflags := Bio.fetch_b_flags bp s
  unfold Bio.rkintr
  rw [if_neg hactive]
  dsimp only
  rw [hfirst, ← hflags]
  rw [← hflags] at hbusy
  replace h := h.fetch bp
  generalize s.fetch bp = s at h hbusy
  -- the request is taken off the queue and done
  have hpop : Cached clean (Bio.setFlags bp (fun fl => { fl with b_done := true })
      { s with d_active := 0, d_actf := s.av_forw bp }) ring la q holder :=
    (h.pop 0).setFlags _ rfl (fun herror => ⟨rfl, ((h.bufs bp).error hbuf herror).2⟩)
      ((h.bufs bp).calm hbuf) fun hmem => absurd hmem hq
  have hend := iodone hpop hbuf hbusy hq
  -- `iodone` releases an asynchronous buffer, and the next request is started
  by_cases ha : (s.b_flags bp).b_async = true
  · rw [if_pos ha] at hend ⊢
    exact hend.rkstart
  · rw [if_neg ha] at hend ⊢
    exact hend.rkstart

/-- A request for a block that the disk does not have ends at once. -/
theorem rkstrategy_rejected (h : Cached clean s ring la q holder)
    (hreject : Bio.rkRejects (s.b_dev bp) (s.b_blkno bp) = true) (hclean : ¬ clean) {p : π}
    (hbp : holder bp = .proc p) (hq : bp ∉ q) :
    if (s.b_flags bp).b_async then
      Cached clean (s.rkstrategy bp) ring (la ++ [bp]) q (update holder bp .avail)
    else Cached clean (s.rkstrategy bp) ring la q holder := by
  have hne : holder bp ≠ .avail := by simp [hbp]
  have hbusy := h.busy_of_holder hne
  have herror : Cached clean ((s.setFlags bp fun fl => { fl with b_error := true }).setFlags bp
      fun fl => { fl with b_done := true }) ring la q holder := by
    rw [Bio.setFlags_setFlags]
    exact h.setFlags _ rfl (fun _ => ⟨rfl, hclean⟩) (by simp [hbusy]) fun hmem => absurd hmem hq
  have hend := herror.iodone (h.isBuf_of_holder hne) (by rwa [Bio.setFlags_self]) hq
  rw [Bio.setFlags_self] at hend
  unfold Bio.rkstrategy
  rw [if_pos hreject]
  exact hend

/-! ## `getblk` -/

/-- The rings are no longer than there are buffers, so searches end. -/
theorem length_le (h : Cached clean s ring la q holder) {t : Ptr} (ht : t.IsHead) :
    (ring t).length ≤ NBUF :=
  Ptr.length_le_of_isBuf (h.rings t ht).nodup_tail fun _ hx => h.isBuf_of_mem_ring ht hx

theorem length_avail_le (h : Cached clean s ring la q holder) : la.length ≤ NBUF :=
  Ptr.length_le_of_isBuf h.avail.nodup_tail fun x hx => ((h.bufs x).avail.mp hx).1

/-- What the search of the device's list finds. -/
theorem search_eq (h : Cached clean s ring la q holder) (dev blkno : Dev) :
    s.search .rktab dev blkno =
      some ((ring .rktab).find? fun bp => s.b_blkno bp = blkno ∧ s.b_dev bp = dev) :=
  (h.rings .rktab (Or.inr rfl)).ringFind_eq (h.length_le (Or.inr rfl))

/-- If the search finds nothing there is nothing. -/
theorem fresh_of_incore (h : Cached clean s ring la q holder) {dev blkno : Dev}
    (hs : s.incore dev blkno = some none) : Fresh clean s dev blkno := by
  obtain ⟨dp, hdp, hsearch⟩ := Option.bind_eq_some_iff.mp hs
  rw [devtab_eq hdp, h.search_eq, Option.some.injEq, List.find?_eq_none] at hsearch
  rintro ⟨hpos, -⟩ bp hbuf ⟨hdev, hblk⟩
  have htab : tabOf (s.b_dev bp) = .rktab := by
    rw [hdev, tabOf, hpos]
    rfl
  have hmem := (h.mem_ring .rktab (Or.inr rfl) bp).mpr ⟨hbuf, htab⟩
  exact hsearch bp hmem (by simp [hdev, hblk])

/-- `incore` finds a buffer that has the block. -/
theorem isBuf_of_incore (h : Cached clean s ring la q holder) {dev blkno : Dev}
    (hs : s.incore dev blkno = some (some bp)) :
    bp.IsBuf ∧ s.b_dev bp = dev ∧ s.b_blkno bp = blkno := by
  obtain ⟨dp, hdp, hsearch⟩ := Option.bind_eq_some_iff.mp hs
  rw [devtab_eq hdp, h.search_eq, Option.some.injEq] at hsearch
  have hmatch := List.find?_some hsearch
  simp only [decide_eq_true_eq] at hmatch
  exact ⟨h.isBuf_of_mem_ring (Or.inr rfl) (List.mem_of_find?_eq_some hsearch), hmatch.2, hmatch.1⟩

/-- No node is on two rings. -/
theorem ring_disjoint (h : Cached clean s ring la q holder) {t t' x : Ptr} (ht : t.IsHead)
    (ht' : t'.IsHead) (hne : t ≠ t') (hx : x ∈ t :: ring t) : x ∉ t' :: ring t' := by
  intro hx'
  rw [List.mem_cons, h.mem_ring t ht] at hx
  rw [List.mem_cons, h.mem_ring t' ht'] at hx'
  rcases hx with rfl | ⟨hxbuf, hx⟩
  · rcases hx' with hx' | ⟨hxbuf, -⟩
    · exact hne hx'
    · exact hxbuf.not_isHead ht
  · rcases hx' with rfl | ⟨-, hx'⟩
    · exact hxbuf.not_isHead ht'
    · exact hne (hx.symm.trans hx')

/-- `bp` leaves the ring that it is on. -/
theorem ring_unlink (h : Cached clean s ring la q holder) (hbuf : bp.IsBuf) {t : Ptr} (ht : t.IsHead) :
    LinkRing (update s.b_forw (s.b_back bp) (s.b_forw bp))
      (update s.b_back (s.b_forw bp) (s.b_back bp)) t ((ring t).erase bp) := by
  by_cases htab : tabOf (s.b_dev bp) = t
  · exact (h.rings t ht).unlink ((h.mem_ring t ht bp).mpr ⟨hbuf, htab⟩)
  · -- the links that are changed belong to the other ring
    have hnot : bp ∉ ring t := fun hmem => htab ((h.mem_ring t ht bp).mp hmem).2
    have ht₀ := Ptr.isHead_tabOf (s.b_dev bp)
    have hmem : bp ∈ ring (tabOf (s.b_dev bp)) := (h.mem_ring _ ht₀ bp).mpr ⟨hbuf, rfl⟩
    rw [List.erase_of_not_mem hnot]
    refine (h.rings t ht).congr (fun y hy => update_of_ne ?_ ..) fun y hy => update_of_ne ?_ ..
    · rintro rfl
      exact h.ring_disjoint ht ht₀ (Ne.symm htab) hy
        ((h.rings _ ht₀).next_prev (List.mem_cons_of_mem _ hmem)).1
    · rintro rfl
      exact h.ring_disjoint ht ht₀ (Ne.symm htab) hy
        ((h.rings _ ht₀).prev_next (List.mem_cons_of_mem _ hmem)).1

/-- `bp` joins the ring of `dp`, which it is not on. -/
theorem ring_link {f b : Ptr → Ptr} {dp : Ptr} {l : List Ptr} (hr : LinkRing f b dp l)
    (hbuf : bp.IsBuf) (hdp : dp.IsHead) (hbp : bp ∉ l) :
    LinkRing (update (update f bp (f dp)) dp bp) (update (update b bp dp) (f dp) bp) dp (bp :: l) :=
  hr.link_first (by
    rw [List.mem_cons]
    exact not_or.mpr ⟨fun heq => hbuf.not_isHead (heq ▸ hdp), hbp⟩)

/-- A buffer is given to another block. -/
theorem assign (h : Cached clean s ring la q holder) {p : π} (hbp : holder bp = .proc p) (hq : bp ∉ q)
    {dev blkno : Dev} {dp : Ptr} (hdp : Bio.getblkTab dev = some dp) (hfresh : Fresh clean s dev blkno) :
    Cached clean (s.assign bp dp dev blkno)
      (fun t => if t = dp then bp :: (ring t).erase bp else (ring t).erase bp) la q holder := by
  obtain rfl := getblkTab_eq hdp
  have hne : holder bp ≠ .avail := by simp [hbp]
  have hbuf := h.isBuf_of_holder hne
  have hbusy := h.busy_of_holder hne
  have hdpHead := Ptr.isHead_tabOf dev
  have hbpHead := Ptr.isHead_tabOf (s.b_dev bp)
  have hbpdp : bp ≠ tabOf dev := fun heq => hbuf.not_isHead (heq ▸ hdpHead)
  have hback : bp ≠ s.b_back bp :=
    ((h.rings _ hbpHead).prev_ne ((h.mem_ring _ hbpHead bp).mpr ⟨hbuf, rfl⟩)).symm
  have hnodup : ∀ t : Ptr, t.IsHead → bp ∉ (ring t).erase bp :=
    fun t ht => (h.rings t ht).nodup_tail.not_mem_erase
  -- the links with `bp` on no ring
  obtain ⟨f, hf⟩ : ∃ f, f = update s.b_forw (s.b_back bp) (s.b_forw bp) := ⟨_, rfl⟩
  obtain ⟨b, hb⟩ : ∃ b, b = update s.b_back (s.b_forw bp) (s.b_back bp) := ⟨_, rfl⟩
  have hout : ∀ t : Ptr, t.IsHead → LinkRing f b t ((ring t).erase bp) := by
    intro t ht
    rw [hf, hb]
    exact h.ring_unlink hbuf ht
  have hassign : s.assign bp (tabOf dev) dev blkno = { s with
      b_flags := update s.b_flags bp { b_busy := true }
      b_forw := update (update f bp (f (tabOf dev))) (tabOf dev) bp
      b_back := update (update b bp (tabOf dev)) (f (tabOf dev)) bp
      b_dev := update s.b_dev bp dev
      b_blkno := update s.b_blkno bp blkno } := by
    simp only [Bio.assign, Bio.setFlags, update_of_ne hback, update_of_ne hbpdp.symm, ← hf, ← hb]
  rw [hassign]
  refine ⟨fun t ht => ?_, fun t ht x => ?_, h.3, h.4, fun x => ?_,
    fun x y hx hy hassoc hdev hblk => ?_⟩
  · by_cases htab : t = tabOf dev
    · rw [if_pos htab, htab]
      exact ring_link (hout _ hdpHead) hbuf hdpHead (hnodup _ hdpHead)
    · -- the other ring has neither `bp` nor a node of the ring of `dp`
      rw [if_neg htab]
      have hmono : ∀ {u y : Ptr}, y ∈ u :: (ring u).erase bp → y ∈ u :: ring u := by
        intro u y hy
        rcases List.mem_cons.mp hy with rfl | hy
        · exact List.mem_cons_self
        · exact List.mem_cons_of_mem _ (List.mem_of_mem_erase hy)
      have hbpt : ∀ y ∈ t :: (ring t).erase bp, y ≠ bp := by
        rintro y hy rfl
        rcases List.mem_cons.mp hy with rfl | hy
        · exact hbuf.not_isHead ht
        · exact hnodup t ht hy
      have hother : ∀ y ∈ t :: (ring t).erase bp, y ∉ tabOf dev :: (ring (tabOf dev)).erase bp :=
        fun y hy hy' => h.ring_disjoint ht hdpHead htab (hmono hy) (hmono hy')
      refine (hout t ht).congr (fun y hy => ?_) fun y hy => ?_ <;> dsimp only
      · rw [update_of_ne (ne_of_mem_of_not_mem List.mem_cons_self (hother y hy)).symm,
          update_of_ne (hbpt y hy)]
      · have hnext := ((hout _ hdpHead).prev_next List.mem_cons_self).1
        rw [update_of_ne (ne_of_mem_of_not_mem hnext (hother y hy)).symm,
          update_of_ne (hbpt y hy)]
  · dsimp only
    by_cases hx : x = bp
    · subst hx
      rw [update_self]
      by_cases htab : t = tabOf dev
      · rw [if_pos htab]
        simp [hbuf, htab]
      · rw [if_neg htab]
        simp [hnodup t ht, Ne.symm htab]
    · rw [update_of_ne hx, ← h.mem_ring t ht]
      split
      · simp [hx, List.mem_erase_of_ne hx]
      · exact List.mem_erase_of_ne hx
  · dsimp only
    by_cases hx : x = bp
    · subst hx
      rw [update_self]
      have hold := h.bufs x
      refine ⟨?_, fun hmem => absurd hmem hq, fun _ herr => by simp at herr,
        fun _ _ => rfl, ?_⟩
      · rw [hold.avail, hbusy]
      · rw [hold.holder, hbusy]
    · rw [update_of_ne hx]
      exact h.bufs x
  · dsimp only at hassoc hdev hblk
    by_cases hxbp : x = bp <;> by_cases hybp : y = bp
    · rw [hxbp, hybp]
    · subst hxbp
      rw [update_self, update_of_ne hybp] at hdev hblk
      rw [update_self] at hassoc
      exact absurd ⟨hdev.symm, hblk.symm⟩ (hfresh hassoc y hy)
    · subst hybp
      rw [update_self, update_of_ne hxbp] at hdev hblk
      rw [update_of_ne hxbp, hdev] at hassoc
      exact absurd ⟨hdev, hblk⟩ (hfresh hassoc x hx)
    · rw [update_of_ne hxbp, update_of_ne hybp] at hdev hblk
      rw [update_of_ne hxbp] at hassoc
      exact h.unique x y hx hy hassoc hdev hblk

end Cached

end UnixV6
