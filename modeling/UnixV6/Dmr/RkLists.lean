import UnixV6.Dmr.RkQueue

/-!
# The queue and the available list share their links

What the routines of the disk and of the available list do to the two lists that run through
`av_forw`: queued buffers are busy, available ones are not, so that an edit of one list does not
change a link of the other.
-/

open Function

namespace UnixV6.DiskQueue

namespace Disk

variable {s s' : Disk} {q la : List Hdr} {bp x : Hdr}

/-- The flags that have been set. -/
@[simp]
theorem setFlags_self (bp : Hdr) (f : BFlags → BFlags) (s : Disk) :
    (s.setFlags bp f).b_flags bp = f (s.b_flags bp) :=
  update_self ..

/-- The flags of other headers stay. -/
theorem setFlags_of_ne (hx : x ≠ bp) (f : BFlags → BFlags) (s : Disk) :
    (s.setFlags bp f).b_flags x = s.b_flags x :=
  update_of_ne hx ..

/-! ## The lists -/

/-- The queue and the available list, linked through the same fields. -/
structure Lists (s : Disk) (q la : List Hdr) : Prop where
  queue : LinkQueue s.av_forw .null s.d_actf s.d_actl q
  avail : LinkRing s.av_forw s.av_back .bfreelist la
  mem_avail : ∀ x, x ∈ la ↔ x.IsBuf ∧ (s.b_flags x).b_busy = false
  queued : ∀ x ∈ q, x ≠ .bfreelist ∧ (s.b_flags x).b_busy = true
  /-- `swap` waits for its buffer. -/
  swbuf : (s.b_flags .swbuf).b_async = false ∧
    (.swbuf ∈ q → (s.b_flags .swbuf).b_done = false)

/-- A header that a call has in its hands. -/
structure Held (s : Disk) (q : List Hdr) (bp : Hdr) : Prop where
  ne_null : bp ≠ .null
  ne_bfreelist : bp ≠ .bfreelist
  busy : (s.b_flags bp).b_busy = true
  notMem : bp ∉ q

namespace Lists

/-- A busy buffer is not on the available list. -/
theorem notMem_avail (h : Lists s q la) (hbp : bp ≠ .bfreelist)
    (hbusy : (s.b_flags bp).b_busy = true) : bp ∉ .bfreelist :: la := by
  intro hmem
  rcases List.mem_cons.mp hmem with heq | hmem
  · exact hbp heq
  · rw [((h.mem_avail bp).mp hmem).2] at hbusy
    exact absurd hbusy (by decide)

/-- Other flags do not matter. -/
theorem congr (h : Lists s q la) (hforw : s'.av_forw = s.av_forw) (hback : s'.av_back = s.av_back)
    (hactf : s'.d_actf = s.d_actf) (hactl : s'.d_actl = s.d_actl)
    (hbusy : ∀ x, (s'.b_flags x).b_busy = (s.b_flags x).b_busy)
    (hasync : (s'.b_flags .swbuf).b_async = false)
    (hdone : .swbuf ∈ q → (s'.b_flags .swbuf).b_done = (s.b_flags .swbuf).b_done) :
    Lists s' q la := by
  refine ⟨?_, ?_, fun x => ?_, fun x hx => ?_, hasync, fun hmem => ?_⟩
  · rw [hforw, hactf, hactl]
    exact h.queue
  · rw [hforw, hback]
    exact h.avail
  · rw [hbusy]
    exact h.mem_avail x
  · rw [hbusy]
    exact h.queued x hx
  · rw [hdone hmem]
    exact h.swbuf.2 hmem

/-- A buffer is taken off the available list. -/
theorem notavail (h : Lists s q la) (hbuf : bp.IsBuf) (hfree : (s.b_flags bp).b_busy = false) :
    Lists (s.notavail bp) q (la.erase bp) := by
  have hbp : bp ∈ la := (h.mem_avail bp).mpr ⟨hbuf, hfree⟩
  have hback : s.av_back bp ≠ bp := h.avail.prev_ne hbp
  have hforw : update s.av_forw (s.av_back bp) (s.av_forw bp) bp = s.av_forw bp :=
    update_of_ne hback.symm ..
  have hflags : ∀ x, x ≠ bp → (s.notavail bp).b_flags x = s.b_flags x := fun x hx =>
    update_of_ne hx ..
  have hself : ((s.notavail bp).b_flags bp).b_busy = true := by
    simp [Disk.notavail]
  have hsw : bp ≠ .swbuf := by
    rintro rfl
    exact hbuf
  refine ⟨?_, ?_, fun x => ?_, fun x hx => ?_, ?_⟩
  · -- the link that is changed belongs to the available list, the queue is of busy buffers
    refine h.queue.congr fun y hy => update_of_ne ?_ ..
    rintro rfl
    obtain ⟨hne, hbusy⟩ := h.queued _ hy
    exact h.notMem_avail hne hbusy (h.avail.next_prev (List.mem_cons_of_mem _ hbp)).1
  · simp only [Disk.notavail, setFlags, hforw]
    exact h.avail.unlink hbp
  -- who is on the list: everybody but `bp`
  · by_cases hx : x = bp
    · subst hx
      rw [hself]
      exact iff_of_false h.avail.nodup_tail.not_mem_erase (by simp)
    · rw [hflags x hx, List.mem_erase_of_ne hx]
      exact h.mem_avail x
  -- what is queued is busy
  · by_cases hxb : x = bp
    · subst hxb
      exact ⟨(h.queued x hx).1, hself⟩
    · rw [hflags x hxb]
      exact h.queued x hx
  · rw [hflags _ hsw.symm]
    exact h.swbuf

/-- A buffer is put at the end of the available list. -/
theorem brelseLinks (h : Lists s q la) (hbuf : bp.IsBuf) (hbp : Held s q bp) :
    Lists (s.brelseLinks bp) q (la ++ [bp]) := by
  have hnew := h.notMem_avail hbp.ne_bfreelist hbp.busy
  have hflags : ∀ x, x ≠ bp → (s.brelseLinks bp).b_flags x = s.b_flags x := fun x hx =>
    update_of_ne hx ..
  have hself : ((s.brelseLinks bp).b_flags bp).b_busy = false := by
    simp [Disk.brelseLinks, setFlags]
  have hsw : Hdr.swbuf ≠ bp := by
    rintro rfl
    exact hbuf
  have hne : ∀ y ∈ q, y ≠ bp := fun y hy => ne_of_mem_of_not_mem hy hbp.notMem
  refine ⟨?_, ?_, fun x => ?_, fun x hx => ?_, ?_⟩
  · refine h.queue.congr fun y hy => ?_
    -- neither the last available buffer nor `bp` is queued
    have hlast : y ≠ s.av_back .bfreelist := by
      rintro rfl
      obtain ⟨hyne, hybusy⟩ := h.queued _ hy
      exact h.notMem_avail hyne hybusy (h.avail.next_prev List.mem_cons_self).1
    show update (update s.av_forw (s.av_back .bfreelist) bp) bp .bfreelist y = _
    rw [update_of_ne (hne y hy), update_of_ne hlast]
  · exact h.avail.link_last hnew
  · by_cases hx : x = bp
    · subst hx
      rw [hself]
      exact iff_of_true (by simp) ⟨hbuf, rfl⟩
    · rw [hflags x hx, ← h.mem_avail x]
      simp [hx]
  · rw [hflags x (hne x hx)]
    exact h.queued x hx
  · rw [hflags _ hsw]
    exact h.swbuf

/-- The first request leaves the queue. -/
theorem pop (h : Lists s (bp :: q) la) (hs' : s' = { s with
      d_active := 0, d_errcnt := 0, d_actf := s.av_forw bp }) : Lists s' q la := by
  subst hs'
  exact ⟨h.queue.pop, h.avail, h.mem_avail, fun x hx => h.queued x (List.mem_cons_of_mem _ hx),
    h.swbuf.1, fun hmem => h.swbuf.2 (List.mem_cons_of_mem _ hmem)⟩

end Lists

/-- What a routine that works on `bp` leaves alone. -/
structure Others (bp : Hdr) (s s' : Disk) : Prop where
  b_flags : ∀ x, x ≠ bp → x ≠ .bfreelist → s'.b_flags x = s.b_flags x
  b_dev : ∀ x, x ≠ bp → s'.b_dev x = s.b_dev x
  b_blkno : ∀ x, x ≠ bp → s'.b_blkno x = s.b_blkno x
  b_wcount : ∀ x, x ≠ bp → s'.b_wcount x = s.b_wcount x
  toIde : s'.toIde = s.toIde
  d_active : s'.d_active = s.d_active
  d_actf : s'.d_actf = s.d_actf
  d_actl : s'.d_actl = s.d_actl

/-- A header that is left as it is. -/
structure Kept (x : Hdr) (s s' : Disk) : Prop where
  b_flags : s'.b_flags x = s.b_flags x
  reqOf : s'.reqOf x = s.reqOf x
  av_forw : s'.av_forw x = s.av_forw x

/-- Left alone twice. -/
theorem Kept.trans {s₁ s₂ s₃ : Disk} (h : Kept x s₁ s₂) (h' : Kept x s₂ s₃) : Kept x s₁ s₃ :=
  ⟨h'.b_flags.trans h.b_flags, h'.reqOf.trans h.reqOf, h'.av_forw.trans h.av_forw⟩

/-- What the others ask for stays. -/
theorem Others.reqOf (h : Others bp s s') (hx : x ≠ bp) (hx' : x ≠ .bfreelist) :
    s'.reqOf x = s.reqOf x := by
  simp only [Disk.reqOf, nsectors, h.b_flags x hx hx', h.b_dev x hx, h.b_blkno x hx,
    h.b_wcount x hx]

/-- Others are left alone twice. -/
theorem Others.trans {s₁ s₂ s₃ : Disk} (h : Others bp s₁ s₂) (h' : Others bp s₂ s₃) :
    Others bp s₁ s₃ where
  b_flags x hx hx' := (h'.b_flags x hx hx').trans (h.b_flags x hx hx')
  b_dev x hx := (h'.b_dev x hx).trans (h.b_dev x hx)
  b_blkno x hx := (h'.b_blkno x hx).trans (h.b_blkno x hx)
  b_wcount x hx := (h'.b_wcount x hx).trans (h.b_wcount x hx)
  toIde := h'.toIde.trans h.toIde
  d_active := h'.d_active.trans h.d_active
  d_actf := h'.d_actf.trans h.d_actf
  d_actl := h'.d_actl.trans h.d_actl

/-- Flags of one header do not concern the others. -/
theorem setFlags_others (bp : Hdr) (f : BFlags → BFlags) (s : Disk) :
    Others bp s (s.setFlags bp f) :=
  ⟨fun _ hx _ => update_of_ne hx .., fun _ _ => rfl, fun _ _ => rfl, fun _ _ => rfl, rfl, rfl, rfl,
    rfl⟩

theorem markDone_others (bp : Hdr) (s : Disk) : Others bp s (s.markDone bp) :=
  ⟨fun _ hx _ => update_of_ne hx .., fun _ _ => rfl, fun _ _ => rfl, fun _ _ => rfl, rfl, rfl, rfl,
    rfl⟩

theorem brelseLinks_others (bp : Hdr) (s : Disk) : Others bp s (s.brelseLinks bp) :=
  ⟨fun _ hx _ => update_of_ne hx .., fun _ _ => rfl, fun _ _ => rfl, fun _ _ => rfl, rfl, rfl, rfl,
    rfl⟩

theorem brelseFlags_others (bp : Hdr) (s : Disk) : Others bp s (s.brelseFlags bp) := by
  refine ⟨fun x _ hx' => ?_, fun x hx => ?_, fun _ _ => ?_, fun _ _ => ?_, ?_, ?_, ?_, ?_⟩
  · simp only [brelseFlags]
    split_ifs <;> simp [setFlags, update_of_ne hx']
  · simp only [brelseFlags]
    split_ifs <;> simp [setFlags, update_of_ne hx]
  all_goals
    simp only [brelseFlags]
    split_ifs <;> rfl

/-- The first part of `brelse` changes no links. -/
theorem brelseFlags_fields (bp : Hdr) (s : Disk) : (s.brelseFlags bp).av_forw = s.av_forw ∧
    (s.brelseFlags bp).av_back = s.av_back ∧ (s.brelseFlags bp).call = s.call ∧
    (s.brelseFlags bp).log = s.log := by
  simp only [brelseFlags]
  split_ifs <;> exact ⟨rfl, rfl, rfl, rfl⟩

/-- Before it raises the priority `brelse` clears a flag of the list head. -/
theorem brelseFlags_b_flags (bp x : Hdr) (s : Disk) : (s.brelseFlags bp).b_flags x = s.b_flags x ∨
    x = .bfreelist ∧ (s.brelseFlags bp).b_flags x = { s.b_flags x with b_wanted := false } := by
  by_cases hx : x = .bfreelist
  · subst hx
    simp only [brelseFlags]
    split_ifs <;> simp [setFlags]
  · left
    simp only [brelseFlags]
    split_ifs <;> simp [setFlags, update_of_ne hx]

namespace Lists

theorem brelseFlags (h : Lists s q la) (bp : Hdr) : Lists (s.brelseFlags bp) q la := by
  obtain ⟨hforw, hback, -⟩ := brelseFlags_fields bp s
  have hothers := brelseFlags_others bp s
  have hsw : (s.brelseFlags bp).b_flags .swbuf = s.b_flags .swbuf :=
    (brelseFlags_b_flags bp .swbuf s).resolve_right fun hne => absurd hne.1 (by decide)
  refine h.congr hforw hback hothers.d_actf hothers.d_actl (fun x => ?_) ?_ fun _ => ?_
  · rcases brelseFlags_b_flags bp x s with heq | ⟨-, heq⟩ <;> rw [heq]
  · rw [hsw]
    exact h.swbuf.1
  · rw [hsw]

/-- Flags that are not `B_BUSY` of a buffer that a call has in its hands. -/
theorem setFlags (h : Lists s q la) (hbp : bp ∉ q) (f : BFlags → BFlags)
    (hbusy : ∀ fl, (f fl).b_busy = fl.b_busy) (hasync : ∀ fl, (f fl).b_async = fl.b_async) :
    Lists (s.setFlags bp f) q la := by
  refine h.congr rfl rfl rfl rfl (fun x => ?_) ?_ fun hmem => ?_
  · by_cases hx : x = bp
    · subst hx
      rw [setFlags_self, hbusy]
    · rw [setFlags_of_ne hx]
  · by_cases hx : .swbuf = bp
    · subst hx
      rw [setFlags_self, hasync]
      exact h.swbuf.1
    · rw [setFlags_of_ne hx]
      exact h.swbuf.1
  · rw [setFlags_of_ne (ne_of_mem_of_not_mem hmem hbp)]

theorem logged (h : Lists s q la) (e : Event) : Lists (s.logged e) q la :=
  h.congr rfl rfl rfl rfl (fun _ => rfl) h.swbuf.1 fun _ => rfl

theorem markDone (h : Lists s q la) (hbp : bp ∉ q) : Lists (s.markDone bp) q la :=
  (h.logged _).setFlags hbp _ (fun _ => rfl) fun _ => rfl

end Lists

namespace Held

/-- A buffer is held as long as it is busy. -/
theorem congr (h : Held s q bp) (hbusy : (s'.b_flags bp).b_busy = (s.b_flags bp).b_busy) :
    Held s' q bp :=
  ⟨h.ne_null, h.ne_bfreelist, by rw [hbusy]; exact h.busy, h.notMem⟩

theorem markDone (h : Held s q bp) : Held (s.markDone bp) q bp :=
  h.congr (by simp [Disk.markDone, Disk.logged])

theorem brelseFlags (h : Held s q bp) : Held (s.brelseFlags bp) q bp :=
  h.congr (by rcases brelseFlags_b_flags bp bp s with heq | ⟨-, heq⟩ <;> rw [heq])

/-- What an asynchronous request is made with is no buffer of `swap`. -/
theorem isBuf (h : Held s q bp) (hl : Lists s q la) (hasync : (s.b_flags bp).b_async = true) :
    bp.IsBuf := by
  cases bp with
  | null => exact h.ne_null rfl
  | bfreelist => exact h.ne_bfreelist rfl
  | swbuf =>
    rw [hl.swbuf.1] at hasync
    exact absurd hasync (by decide)
  | buf n => trivial

end Held

/-- The links of busy buffers are not those of the available list. -/
theorem Lists.brelseLinks_av_forw (h : Lists s q la) (hne : x ≠ bp) (hhead : x ≠ .bfreelist)
    (hbusy : (s.b_flags x).b_busy = true) : (s.brelseLinks bp).av_forw x = s.av_forw x := by
  have hlast : x ≠ s.av_back .bfreelist := by
    rintro rfl
    exact h.notMem_avail hhead hbusy (h.avail.next_prev List.mem_cons_self).1
  show update (update s.av_forw (s.av_back .bfreelist) bp) bp .bfreelist x = _
  rw [update_of_ne hne, update_of_ne hlast]

/-- `iodone` for a buffer that is not in the queue. -/
theorem Lists.iodone (h : Lists s q la) (hbp : Held s q bp) :
    (∃ la', Lists (s.iodone bp) q la') ∧ Others bp s (s.iodone bp) ∧ (s.iodone bp).call = s.call ∧
      (s.iodone bp).log = s.log ++ [.iodone (s.reqOf bp) (s.b_flags bp).b_error] ∧
      (∀ x, x ≠ bp → x ≠ .bfreelist → (s.b_flags x).b_busy = true →
        (s.iodone bp).av_forw x = s.av_forw x) := by
  have hdone := h.markDone hbp.notMem
  have hothers := markDone_others bp s
  rw [Disk.iodone]
  split_ifs with hasync
  · have hlinks := (hdone.brelseFlags bp).brelseLinks (hbp.markDone.isBuf hdone hasync)
      hbp.markDone.brelseFlags
    have hflags := hothers.trans (brelseFlags_others bp _)
    obtain ⟨hforw, -, hcall, hlog⟩ := brelseFlags_fields bp (s.markDone bp)
    refine ⟨⟨_, hlinks⟩, hflags.trans (brelseLinks_others bp _), hcall, hlog,
      fun x hx hx' hbusy => ?_⟩
    rw [(hdone.brelseFlags bp).brelseLinks_av_forw hx hx' (by rw [hflags.b_flags x hx hx', hbusy]),
      hforw]
    rfl
  · refine ⟨⟨la, ?_⟩, hothers.trans (setFlags_others bp _ _), rfl, rfl, fun _ _ _ _ => rfl⟩
    exact hdone.setFlags hbp.notMem _ (fun _ => rfl) fun _ => rfl

/-! ## The queue grows -/

/-- The walk along the links finds the queue. -/
theorem walk_eq {next : Hdr → Hdr} {first last : Hdr} {n : ℕ}
    (h : LinkQueue next .null first last q) (hn : q.length ≤ n) : walk next n first = q := by
  induction q generalizing first n with
  | nil =>
    rw [h.first_eq_null_iff.mpr rfl]
    cases n <;> rfl
  | cons bp q ih =>
    obtain ⟨n, rfl⟩ : ∃ m, n = m + 1 := ⟨n - 1, by rw [List.length_cons] at hn; omega⟩
    have hne : bp ≠ .null := fun heq => h.null_notMem (heq ▸ List.mem_cons_self)
    rw [h.first_cons, walk, if_neg hne, ih h.pop (by rw [List.length_cons] at hn; omega)]

theorem Lists.queued_iff (h : Lists s q la) (bp : Hdr) : s.Queued bp ↔ bp ∈ q := by
  have hsub : q ⊆ .swbuf :: (List.finRange NBUF).map Hdr.buf := by
    intro x hx
    cases x with
    | null => exact absurd hx h.queue.null_notMem
    | bfreelist => exact absurd rfl (h.queued _ hx).1
    | swbuf => exact List.mem_cons_self
    | buf n => simp
  have hlen := (List.subperm_of_subset (List.nodup_cons.mp h.queue.nodup).2 hsub).length_le
  rw [List.length_cons, List.length_map, List.length_finRange] at hlen
  rw [Queued, walk_eq h.queue hlen]

/-- A caller fills in a header, which is not in the queue, for a request. -/
theorem Lists.fill (h : Lists s q la) (fl : BFlags) (hq : bp ∉ q) (havail : bp ∉ la)
    (hbusy : fl.b_busy = true) (hasync : bp = .swbuf → fl.b_async = false)
    (hflags : s'.b_flags = update s.b_flags bp fl) (hforw : s'.av_forw = s.av_forw)
    (hback : s'.av_back = s.av_back) (hactf : s'.d_actf = s.d_actf) (hactl : s'.d_actl = s.d_actl) :
    Lists s' q la := by
  have hself : s'.b_flags bp = fl := by rw [hflags, update_self]
  have hother : ∀ x, x ≠ bp → s'.b_flags x = s.b_flags x := fun x hx => by
    rw [hflags, update_of_ne hx]
  refine ⟨?_, ?_, fun x => ?_, fun x hx => ?_, ?_, fun hmem => ?_⟩
  · rw [hforw, hactf, hactl]
    exact h.queue
  · rw [hforw, hback]
    exact h.avail
  · by_cases hx : x = bp
    · subst hx
      rw [hself, hbusy]
      exact iff_of_false havail fun hfree => absurd hfree.2 (by decide)
    · rw [hother x hx]
      exact h.mem_avail x
  · rw [hother x (ne_of_mem_of_not_mem hx hq)]
    exact h.queued x hx
  · by_cases hx : .swbuf = bp
    · rw [hx, hself]
      exact hasync hx.symm
    · rw [hother _ hx]
      exact h.swbuf.1
  · rw [hother _ (ne_of_mem_of_not_mem hmem hq)]
    exact h.swbuf.2 hmem

/-- What `putLast` leaves alone. -/
theorem putLast_fields (bp : Hdr) (s : Disk) : (s.putLast bp).toIde = s.toIde ∧
    (s.putLast bp).d_active = s.d_active ∧ (s.putLast bp).log = s.log ∧
    (s.putLast bp).b_flags = s.b_flags ∧ ∀ x, (s.putLast bp).reqOf x = s.reqOf x := by
  rw [putLast]
  split_ifs <;> exact ⟨rfl, rfl, rfl, rfl, fun _ => rfl⟩

/-- A request is put behind the last one. -/
theorem Lists.putLast (h : Lists s q la) (hbp : Held s q bp) (hforw : s.av_forw bp = .null)
    (hdone : (s.b_flags bp).b_done = false) : Lists (s.putLast bp) (q ++ [bp]) la := by
  have hnull : update s.av_forw bp .null = s.av_forw := by
    rw [← hforw, update_eq_self]
  have hbp' : bp ∉ .null :: q := by
    rw [List.mem_cons]
    exact not_or.mpr ⟨hbp.ne_null, hbp.notMem⟩
  obtain ⟨-, -, -, hflags, -⟩ := putLast_fields bp s
  refine ⟨?_, ?_, ?_, fun x hx => ?_, ?_, fun hx => ?_⟩
  · by_cases hempty : q = []
    · have hfirst : s.d_actf = .null := h.queue.first_eq_null_iff.mpr hempty
      simp only [Disk.putLast, if_pos hfirst, hempty, List.nil_append]
      rw [← hnull]
      exact LinkQueue.push_nil hbp.ne_null
    · have hfirst : ¬s.d_actf = .null := mt h.queue.first_eq_null_iff.mp hempty
      simp only [Disk.putLast, if_neg hfirst]
      have hpush := h.queue.push hempty hbp'
      rwa [hnull] at hpush
  · by_cases hempty : q = []
    · have hfirst : s.d_actf = .null := h.queue.first_eq_null_iff.mpr hempty
      simp only [Disk.putLast, if_pos hfirst]
      exact h.avail
    · have hfirst : ¬s.d_actf = .null := mt h.queue.first_eq_null_iff.mp hempty
      simp only [Disk.putLast, if_neg hfirst]
      refine h.avail.congr (fun y hy => update_of_ne ?_ ..) fun _ _ => rfl
      -- the last request is not available
      rintro rfl
      obtain ⟨m, z, hz⟩ := q.eq_nil_or_concat'.resolve_left hempty
      have hlast : s.d_actl ∈ q := by
        rw [← h.queue.last_eq z (by simp [hz]), hz]
        simp
      obtain ⟨hne, hbusy⟩ := h.queued _ hlast
      exact h.notMem_avail hne hbusy hy
  · rw [hflags]
    exact h.mem_avail
  · rw [hflags]
    rcases List.mem_append.mp hx with hx | hx
    · exact h.queued x hx
    · rw [List.mem_singleton.mp hx]
      exact ⟨hbp.ne_bfreelist, hbp.busy⟩
  · rw [hflags]
    exact h.swbuf.1
  · rw [hflags]
    rcases List.mem_append.mp hx with hx | hx
    · exact h.swbuf.2 hx
    · rw [List.mem_singleton.mp hx]
      exact hdone

end Disk

end UnixV6.DiskQueue
