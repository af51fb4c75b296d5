import UnixV6.Dmr.BufferCache
import UnixV6.Dmr.RkOrder

/-!
# The requests of the buffer cache

The calls in `DiskQueue` are those of any callers that keep a promise: a buffer that is handed to
`rkstrategy` or `brelse` is busy and not in the queue. Here the callers are the routines of `Bio`.
`Drives` relates a state of the cache to one of the driver, and each piece of code of the cache, and
each interrupt, is a run of calls and interrupts of `DiskQueue`. So the cache keeps the promise.

A block is one sector, and where in core its buffer lies does not matter here.
-/

open Function

namespace UnixV6

open DiskQueue (Hdr Disk)

variable {π β : Type} {clean : Prop} {used : Dev → Dev → Prop}

/-! ## The driver -/

namespace DiskQueue.Disk

/-- A transfer of one sector. -/
theorem ideio_count (sector n off seg cmd : ℕ) (i : Ide) :
    (ideio sector n off seg cmd i).io_count = n := by
  unfold ideio idestart
  dsimp only
  split_ifs <;> rfl

/-- The transfer of a block. -/
theorem devstart_count {d : Disk} {bp : Hdr} (hphys : (d.b_flags bp).b_phys = false) :
    (d.devstart bp).io_count = 1 := by
  have hone : d.nsectors bp = 1 := by
    rw [Disk.nsectors, if_neg (by simp [hphys])]
  unfold Disk.devstart
  rw [hone]
  exact ideio_count ..

/-- After the start of a request for a block there is one sector to come. -/
theorem rkstart_count {d : Disk} (hidle : d.d_active = 0)
    (hphys : d.d_actf ≠ .null → (d.b_flags d.d_actf).b_phys = false)
    (hactive : d.rkstart.d_active ≠ 0) : d.rkstart.io_count = 1 := by
  unfold Disk.rkstart at hactive ⊢
  split at hactive
  · exact absurd hidle hactive
  · next hnull =>
    rw [if_neg hnull]
    exact devstart_count (hphys hnull)

/-- What a start of a request leaves alone. -/
theorem rkstart_fields (d : Disk) : d.rkstart.b_flags = d.b_flags ∧ d.rkstart.b_dev = d.b_dev ∧
    d.rkstart.b_blkno = d.b_blkno ∧ d.rkstart.call = d.call := by
  unfold Disk.rkstart
  split <;> exact ⟨rfl, rfl, rfl, rfl⟩

/-- The next request concerns no header but for its links. -/
theorem enqueue_fields (bp : Hdr) (d : Disk) : (d.enqueue bp).b_flags = d.b_flags ∧
    (d.enqueue bp).b_dev = d.b_dev ∧ (d.enqueue bp).b_blkno = d.b_blkno := by
  have hput : ((d.logged (.accept (d.reqOf bp))).putLast bp).b_flags = d.b_flags ∧
      ((d.logged (.accept (d.reqOf bp))).putLast bp).b_dev = d.b_dev ∧
      ((d.logged (.accept (d.reqOf bp))).putLast bp).b_blkno = d.b_blkno := by
    unfold Disk.putLast
    split <;> exact ⟨rfl, rfl, rfl⟩
  unfold Disk.enqueue
  dsimp only
  split
  · obtain ⟨hflags, hdev, hblkno, -⟩ :=
      rkstart_fields ((d.logged (.accept (d.reqOf bp))).putLast bp)
    rw [hflags, hdev, hblkno]
    exact hput
  · exact hput

/-- A request that comes to an idle drive is started. -/
theorem enqueue_count {bp : Hdr} {d : Disk} (hcount : d.d_active ≠ 0 → d.io_count = 1)
    (hidle : d.d_active = 0 → d.d_actf = .null) (hphys : (d.b_flags bp).b_phys = false)
    (hactive : (d.enqueue bp).d_active ≠ 0) : (d.enqueue bp).io_count = 1 := by
  obtain ⟨s, hs⟩ : ∃ s : Disk, s = (d.logged (.accept (d.reqOf bp))).putLast bp := ⟨_, rfl⟩
  have hput : s.d_active = d.d_active ∧ s.io_count = d.io_count ∧ s.b_flags = d.b_flags ∧
      (d.d_actf = .null → s.d_actf = bp) := by
    rw [hs]
    unfold Disk.putLast
    split
    · exact ⟨rfl, rfl, rfl, fun _ => rfl⟩
    · next hne => exact ⟨rfl, rfl, rfl, fun hnull => absurd hnull hne⟩
  obtain ⟨hsactive, hscount, hsflags, hsactf⟩ := hput
  unfold Disk.enqueue at hactive ⊢
  rw [← hs] at hactive ⊢
  dsimp only at hactive ⊢
  split at hactive
  · next hzero =>
    rw [if_pos hzero]
    refine rkstart_count hzero (fun _ => ?_) hactive
    rw [hsactf (hidle (hsactive ▸ hzero)), hsflags, hphys]
  · next hzero =>
    rw [if_neg hzero, hscount]
    exact hcount (hsactive ▸ hzero)

theorem iodone_others (bp : Hdr) (d : Disk) : Others bp d (d.iodone bp) := by
  have hdone := markDone_others bp d
  unfold Disk.iodone
  dsimp only
  split
  · exact (hdone.trans (brelseFlags_others bp _)).trans
      (brelseLinks_others bp _)
  · exact hdone.trans (setFlags_others bp _ _)

theorem iodone_call (bp : Hdr) (d : Disk) : (d.iodone bp).call = d.call := by
  unfold Disk.iodone
  dsimp only
  split
  · exact (brelseFlags_fields bp (d.markDone bp)).2.2.1
  · rfl

/-- The calls that complete a rejected request. -/
theorem exists_runSteps_rejecting {bp : Hdr} {d : Disk} (hcall : d.call = .rejecting bp) :
    ∃ as, runSteps DiskQueue.step as d = some { d.iodone bp with call := .none } := by
  by_cases hasync : ((d.markDone bp).b_flags bp).b_async = true
  · refine ⟨[.proceed, .proceed], ?_⟩
    rw [runSteps, DiskQueue.step, hcall]
    dsimp only
    rw [if_pos hasync, Disk.iodone, if_pos hasync]
    rfl
  · refine ⟨[.proceed], ?_⟩
    rw [runSteps, DiskQueue.step, hcall]
    dsimp only
    rw [if_neg hasync, Disk.iodone, if_neg hasync]
    rfl

end DiskQueue.Disk

/-! ## Headers -/

/-- The pointer to a header. No list runs through `swbuf` here, as none runs through `rktab`. -/
def DiskQueue.Hdr.ptr : Hdr → Ptr
  | .null => .null
  | .bfreelist => .bfreelist
  | .swbuf => .rktab
  | .buf n => .buf n

theorem DiskQueue.Hdr.ptr_injective : Injective Hdr.ptr := by
  intro x y h
  cases x <;> cases y <;> simp_all [Hdr.ptr]

/-- Only a buffer proper is pointed at as one. -/
theorem DiskQueue.Hdr.ptr_eq_buf {x : Hdr} {n : Fin NBUF} : x.ptr = .buf n ↔ x = .buf n :=
  DiskQueue.Hdr.ptr_injective.eq_iff (b := .buf n)

theorem DiskQueue.Hdr.ptr_eq_null {x : Hdr} : x.ptr = .null ↔ x = .null :=
  DiskQueue.Hdr.ptr_injective.eq_iff (b := .null)

namespace Bio

/-- The links of the available list and of the queue, and who is busy. -/
structure Linked (s : Bio π β) (d : Disk) : Prop where
  forw : ∀ x : Hdr, s.av_forw x.ptr = (d.av_forw x).ptr
  back : ∀ x : Hdr, s.av_back x.ptr = (d.av_back x).ptr
  actf : s.d_actf = d.d_actf.ptr
  actl : s.d_actl = d.d_actl.ptr
  active : d.d_active = s.d_active
  busy : ∀ n, (d.b_flags (.buf n)).b_busy = (s.b_flags (.buf n)).b_busy

/-- What a buffer in the queue asks for: one block. -/
structure Asks (s : Bio π β) (d : Disk) (n : Fin NBUF) : Prop where
  dev : d.b_dev (.buf n) = s.b_dev (.buf n)
  blkno : d.b_blkno (.buf n) = s.b_blkno (.buf n)
  read : (d.b_flags (.buf n)).b_read = (s.b_flags (.buf n)).b_read
  async : (d.b_flags (.buf n)).b_async = (s.b_flags (.buf n)).b_async
  phys : (d.b_flags (.buf n)).b_phys = false

/-- The cache with the queue `q`, and the driver between two calls. -/
structure Drives (s : Bio π β) (q : List Ptr) (d : Disk) : Prop extends Linked s d where
  queue : LinkQueue s.av_forw .null s.d_actf s.d_actl q
  asks : ∀ n, .buf n ∈ q → Asks s d n
  count : d.d_active ≠ 0 → d.io_count = 1
  call : d.call = .none

/-- A link that is set in both. -/
theorem update_ptr {f : Ptr → Ptr} {g : Hdr → Hdr} (h : ∀ x, f x.ptr = (g x).ptr) (a b x : Hdr) :
    update f a.ptr b.ptr x.ptr = (update g a b x).ptr := by
  by_cases hx : x = a
  · rw [hx, update_self, update_self]
  · rw [update_of_ne hx, update_of_ne (DiskQueue.Hdr.ptr_injective.ne hx), h x]

/-- Flags of one buffer that are set in both. -/
theorem update_busy {f : Ptr → BFlags} {g : Hdr → BFlags}
    (h : ∀ m, (g (.buf m)).b_busy = (f (.buf m)).b_busy) (n : Fin NBUF) {fl fl' : BFlags}
    (hfl : fl'.b_busy = fl.b_busy) (m : Fin NBUF) :
    (update g (.buf n) fl' (.buf m)).b_busy = (update f (.buf n) fl (.buf m)).b_busy := by
  by_cases hm : m = n
  · rw [hm, update_self, update_self, hfl]
  · have hbuf : Hdr.buf m ≠ .buf n := by simpa using hm
    have hptr : Ptr.buf m ≠ .buf n := by simpa using hm
    rw [update_of_ne hbuf, update_of_ne hptr, h m]

namespace Linked

variable {s s' : Bio π β} {d d' : Disk} {n : Fin NBUF}

theorem notavail (h : s.Linked d) : (s.notavail (.buf n)).Linked (d.notavail (.buf n)) := by
  have hback : s.av_back (.buf n) = (d.av_back (.buf n)).ptr := h.back (.buf n)
  have hforw : s.av_forw (.buf n) = (d.av_forw (.buf n)).ptr := h.forw (.buf n)
  have hlinks : ∀ x : Hdr, update s.av_forw (s.av_back (.buf n)) (s.av_forw (.buf n)) x.ptr =
      (update d.av_forw (d.av_back (.buf n)) (d.av_forw (.buf n)) x).ptr := by
    rw [hback, hforw]
    exact update_ptr h.forw _ _
  refine ⟨hlinks, fun x => ?_, h.actf, h.actl, h.active, update_busy h.busy n rfl⟩
  have hself : update s.av_forw (s.av_back (.buf n)) (s.av_forw (.buf n)) (.buf n) =
      (update d.av_forw (d.av_back (.buf n)) (d.av_forw (.buf n)) (.buf n)).ptr := hlinks (.buf n)
  show update s.av_back (update s.av_forw (s.av_back (.buf n)) (s.av_forw (.buf n)) (.buf n))
    (s.av_back (.buf n)) x.ptr = _
  rw [hself, hback]
  exact update_ptr h.back _ _ x

/-- A buffer is released in both. -/
theorem brelse (h : s.Linked d) :
    (s.brelse (.buf n)).Linked ((d.brelseFlags (.buf n)).brelseLinks (.buf n)) := by
  have hlast : s.av_back .bfreelist = (d.av_back .bfreelist).ptr := h.back .bfreelist
  obtain ⟨hforw, hback, -, -⟩ := DiskQueue.Disk.brelseFlags_fields (.buf n) d
  have hothers := DiskQueue.Disk.brelseFlags_others (.buf n) d
  refine ⟨fun x => ?_, fun x => ?_, ?_, ?_, ?_, fun m => ?_⟩
  · rw [brelse_av_forw, hlast]
    simp only [Disk.brelseLinks, Disk.setFlags, hforw, hback]
    exact update_ptr (update_ptr h.forw _ (.buf n)) (.buf n) .bfreelist x
  · rw [brelse_av_back, hlast]
    simp only [Disk.brelseLinks, Disk.setFlags, hback]
    exact update_ptr (update_ptr h.back (.buf n) _) .bfreelist (.buf n) x
  · rw [brelse_d_actf, h.actf, ← hothers.d_actf]
    rfl
  · rw [brelse_d_actl, h.actl, ← hothers.d_actl]
    rfl
  · rw [brelse_d_active, ← h.active, ← hothers.d_active]
    rfl
  · by_cases hm : m = n
    · rw [hm, brelse_flags_self (by simp)]
      simp [Disk.brelseLinks]
    · have hbuf : Hdr.buf m ≠ .buf n := by simpa using hm
      have hptr : Ptr.buf m ≠ .buf n := by simpa using hm
      rw [brelse_flags_of_ne hptr (by simp), ← h.busy m, ← hothers.b_flags _ hbuf (by simp)]
      simp [Disk.brelseLinks, DiskQueue.Disk.setFlags_of_ne hbuf]

/-- Flags that leave a buffer busy or free. -/
theorem setFlags (h : s.Linked d) {f g : BFlags → BFlags} (hf : ∀ fl, (f fl).b_busy = fl.b_busy)
    (hg : ∀ fl, (g fl).b_busy = fl.b_busy) :
    (s.setFlags (.buf n) f).Linked (d.setFlags (.buf n) g) := by
  refine ⟨h.forw, h.back, h.actf, h.actl, h.active, update_busy h.busy n ?_⟩
  rw [hf, hg, h.busy n]

/-- The end of a transfer. -/
theorem iodone (h : s.Linked d)
    (hasync : (d.b_flags (.buf n)).b_async = (s.b_flags (.buf n)).b_async) :
    (s.iodone (.buf n)).Linked (d.iodone (.buf n)) := by
  have hdone : (s.setFlags (.buf n) fun fl => { fl with b_done := true }).Linked
      (d.markDone (.buf n)) :=
    ⟨h.forw, h.back, h.actf, h.actl, h.active, update_busy h.busy n (h.busy n)⟩
  have hflag : ((d.markDone (.buf n)).b_flags (.buf n)).b_async =
      (s.b_flags (.buf n)).b_async := by
    rw [← hasync]
    simp [Disk.markDone, Disk.logged]
  unfold Bio.iodone Disk.iodone
  dsimp only
  rw [setFlags_self, hflag]
  split
  · exact hdone.brelse
  · have hunwant := hdone.setFlags (n := n) (f := fun fl => { fl with b_wanted := false })
      (g := fun fl => { fl with b_wanted := false }) (fun _ => rfl) fun _ => rfl
    exact ⟨hunwant.forw, hunwant.back, hunwant.actf, hunwant.actl, hunwant.active, hunwant.busy⟩

theorem actf_eq_null (h : s.Linked d) : s.d_actf = .null ↔ d.d_actf = .null := by
  rw [h.actf]
  exact DiskQueue.Hdr.ptr_eq_null

theorem rkstart (h : s.Linked d) : s.rkstart.Linked d.rkstart := by
  unfold Bio.rkstart Disk.rkstart
  by_cases hnull : d.d_actf = .null
  · rw [if_pos hnull, if_pos (h.actf_eq_null.mpr hnull)]
    exact h
  · rw [if_neg hnull, if_neg (mt h.actf_eq_null.mp hnull)]
    unfold Bio.devstart
    split <;> exact ⟨h.forw, h.back, h.actf, h.actl, congrArg (· + 1) h.active, h.busy⟩

/-- The next request is started if the drive is idle. -/
theorem startIdle (h : s.Linked d) :
    (if s.d_active = 0 then s.rkstart else s).Linked
      (if d.d_active = 0 then d.rkstart else d) := by
  rw [h.active]
  split
  · exact h.rkstart
  · exact h

theorem logged (h : s.Linked d) (e : DiskQueue.Event) : s.Linked (d.logged e) :=
  ⟨h.forw, h.back, h.actf, h.actl, h.active, h.busy⟩

/-- One turn of the loop of `binit`. -/
theorem binitBuf (h : s.Linked d) : (s.binitBuf (.buf n)).Linked (d.binitBuf (.buf n)) := by
  have hset : Linked { s.setFlags (.buf n) fun _ => { b_busy := true } with
      b_dev := update s.b_dev (.buf n) (-1) } { d.setFlags (.buf n) fun _ => { b_busy := true } with
        b_dev := update d.b_dev (.buf n) (-1) } :=
    ⟨h.forw, h.back, h.actf, h.actl, h.active, update_busy h.busy n rfl⟩
  unfold Bio.binitBuf Disk.binitBuf
  apply brelse
  exact ⟨hset.forw, hset.back, hset.actf, hset.actl, hset.active, hset.busy⟩

/-- The loop of `binit`. -/
theorem foldl_binitBuf (h : s.Linked d) (l : List (Fin NBUF)) :
    ((l.map Ptr.buf).foldl Bio.binitBuf s).Linked ((l.map Hdr.buf).foldl Disk.binitBuf d) := by
  induction l generalizing s d with
  | nil => exact h
  | cons n l ih => exact ih h.binitBuf

/-- A buffer is put behind the last one of the queue. -/
theorem putLast (h : s.Linked d) : Linked
    { (if s.d_actf = .null then { s with d_actf := .buf n }
      else { s with av_forw := update s.av_forw s.d_actl (.buf n) }) with d_actl := .buf n }
    (d.putLast (.buf n)) := by
  unfold Disk.putLast
  by_cases hnull : d.d_actf = .null
  · rw [if_pos hnull, if_pos (h.actf_eq_null.mpr hnull)]
    exact ⟨h.forw, h.back, rfl, rfl, h.active, h.busy⟩
  · rw [if_neg hnull, if_neg (mt h.actf_eq_null.mp hnull)]
    refine ⟨?_, h.back, h.actf, rfl, h.active, h.busy⟩
    rw [h.actl]
    exact update_ptr h.forw _ (.buf n)

end Linked

/-! ## Requests -/

/-- A request stays what it is if its header does. -/
theorem Asks.congr {s s' : Bio π β} {d d' : Disk} {n : Fin NBUF} (h : Asks s d n)
    (hdev : s'.b_dev (.buf n) = s.b_dev (.buf n))
    (hblkno : s'.b_blkno (.buf n) = s.b_blkno (.buf n))
    (hread : (s'.b_flags (.buf n)).b_read = (s.b_flags (.buf n)).b_read)
    (hasync : (s'.b_flags (.buf n)).b_async = (s.b_flags (.buf n)).b_async)
    (hdev' : d'.b_dev (.buf n) = d.b_dev (.buf n))
    (hblkno' : d'.b_blkno (.buf n) = d.b_blkno (.buf n))
    (hflags' : d'.b_flags (.buf n) = d.b_flags (.buf n)) : Asks s' d' n where
  dev := by rw [hdev, hdev', h.dev]
  blkno := by rw [hblkno, hblkno', h.blkno]
  read := by rw [hread, hflags', h.read]
  async := by rw [hasync, hflags', h.async]
  phys := by rw [hflags', h.phys]

/-- The end of a transfer concerns its own buffer. -/
theorem Asks.iodone {s : Bio π β} {d : Disk} {m n : Fin NBUF} (h : Asks s d m) (hm : m ≠ n) :
    Asks (s.iodone (.buf n)) (d.iodone (.buf n)) m := by
  have hbuf : Hdr.buf m ≠ .buf n := by simpa using hm
  have hptr : Ptr.buf m ≠ .buf n := by simpa using hm
  have hothers := DiskQueue.Disk.iodone_others (.buf n) d
  have hflags : (s.iodone (.buf n)).b_flags (.buf m) = s.b_flags (.buf m) :=
    iodone_flags_of_ne hptr (by simp) s
  refine h.congr ?_ (by rw [iodone_b_blkno]) (by rw [hflags]) (by rw [hflags])
    (hothers.b_dev _ hbuf) (hothers.b_blkno _ hbuf) (hothers.b_flags _ hbuf (by simp))
  unfold Bio.iodone
  dsimp only
  split
  · rcases brelse_b_dev (.buf n) (s.setFlags (.buf n) fun fl => { fl with b_done := true })
      (.buf m) with hdev | ⟨-, heq, -⟩
    · exact hdev
    · exact absurd heq hptr
  · rfl

/-- The header that a request is made with. The transfer is that of one sector. -/
def filled (s : Bio π β) (d : Disk) (n : Fin NBUF) : Disk :=
  { d with
    b_flags := update d.b_flags (.buf n) { s.b_flags (.buf n) with b_phys := false }
    b_dev := update d.b_dev (.buf n) (s.b_dev (.buf n))
    b_blkno := update d.b_blkno (.buf n) (s.b_blkno (.buf n))
    b_wcount := update d.b_wcount (.buf n) 0
    b_addr := update d.b_addr (.buf n) 0
    b_xmem := update d.b_xmem (.buf n) 0 }

/-- A buffer that is busy stays so when its header is filled in. -/
theorem Linked.filled {s : Bio π β} {d : Disk} {n : Fin NBUF} (h : s.Linked d) :
    s.Linked (filled s d n) := by
  refine ⟨h.forw, h.back, h.actf, h.actl, h.active, fun m => ?_⟩
  have hbusy : ({ s.b_flags (.buf n) with b_phys := false } : BFlags).b_busy =
      (s.b_flags (.buf n)).b_busy := rfl
  have hupdate := update_busy h.busy n hbusy m
  rw [update_eq_self] at hupdate
  exact hupdate

theorem asks_filled {s : Bio π β} {d : Disk} {n : Fin NBUF} : Asks s (filled s d n) n := by
  refine ⟨?_, ?_, ?_, ?_, ?_⟩ <;> simp [filled]

/-- Another request stays as it is. -/
theorem Asks.filled {s : Bio π β} {d : Disk} {m n : Fin NBUF} (h : Asks s d m) (hm : m ≠ n) :
    Asks s (filled s d n) m := by
  have hbuf : Hdr.buf m ≠ .buf n := by simpa using hm
  exact h.congr rfl rfl rfl rfl (update_of_ne hbuf ..) (update_of_ne hbuf ..) (update_of_ne hbuf ..)

namespace Drives

variable {s s' : Bio π β} {d : Disk} {ring : Ptr → List Ptr} {la q : List Ptr}
  {holder : Ptr → Holder π} {n : Fin NBUF} {p : π} {qd lad : List Hdr}

theorem queue_eq (h : s.Drives q d) (hl : d.Lists qd lad) : qd.map Hdr.ptr = q := by
  have hmap := hl.queue.map DiskQueue.Hdr.ptr_injective h.forw
  rw [← h.actf] at hmap
  exact hmap.unique h.queue

/-- Both know the same buffers in the queue. -/
theorem queued_iff (h : s.Drives q d) (hl : d.Lists qd lad) : d.Queued (.buf n) ↔ .buf n ∈ q := by
  rw [hl.queued_iff, ← h.queue_eq hl]
  exact (List.mem_map_of_injective DiskQueue.Hdr.ptr_injective (a := .buf n)).symm

/-- Flags, blocks and sleepers of buffers that are not in the queue do not matter. -/
theorem quiet (h : s.Drives q d) (hforw : s'.av_forw = s.av_forw) (hback : s'.av_back = s.av_back)
    (hactf : s'.d_actf = s.d_actf) (hactl : s'.d_actl = s.d_actl)
    (hactive : s'.d_active = s.d_active)
    (hbusy : ∀ m, (s'.b_flags (.buf m)).b_busy = (s.b_flags (.buf m)).b_busy)
    (hqueue : ∀ m, .buf m ∈ q → s'.b_dev (.buf m) = s.b_dev (.buf m) ∧
      s'.b_blkno (.buf m) = s.b_blkno (.buf m) ∧
      (s'.b_flags (.buf m)).b_read = (s.b_flags (.buf m)).b_read ∧
      (s'.b_flags (.buf m)).b_async = (s.b_flags (.buf m)).b_async) : s'.Drives q d := by
  refine ⟨⟨?_, ?_, ?_, ?_, ?_, fun m => ?_⟩, ?_, fun m hm => ?_, h.count, h.call⟩
  · rw [hforw]
    exact h.forw
  · rw [hback]
    exact h.back
  · rw [hactf, h.actf]
  · rw [hactl, h.actl]
  · rw [hactive, h.active]
  · rw [hbusy, h.busy]
  · rw [hforw, hactf, hactl]
    exact h.queue
  · obtain ⟨hdev, hblkno, hread, hasync⟩ := hqueue m hm
    exact (h.asks m hm).congr hdev hblkno hread hasync rfl rfl rfl

/-- An available buffer is taken. -/
theorem notavail (h : s.Drives q d) (hc : Cached clean s ring la q holder) (hbp : .buf n ∈ la)
    (p : π) : DiskQueue.step d (.notavail (.buf n)) = some (d.notavail (.buf n)) ∧
      (s.notavail (.buf n)).Drives q (d.notavail (.buf n)) := by
  have hfree : (d.b_flags (.buf n)).b_busy = false := by
    rw [h.busy]
    exact ((hc.bufs _).avail.mp hbp).2
  have hq := hc.notMem_queue_of_avail hbp
  refine ⟨if_pos ⟨h.call, trivial, hfree⟩, h.toLinked.notavail, (hc.notavail hbp p).queue,
    fun m hm => ?_, h.count, h.call⟩
  have hne := ne_of_mem_of_not_mem hm hq
  have hne' : Hdr.buf m ≠ .buf n := by simpa using hne
  have hflags : (s.notavail (.buf n)).b_flags (.buf m) = s.b_flags (.buf m) := update_of_ne hne ..
  exact (h.asks m hm).congr rfl rfl (by rw [hflags]) (by rw [hflags]) rfl rfl (update_of_ne hne' ..)

/-- A buffer is released. -/
theorem brelse (h : s.Drives q d) (hl : d.Lists qd lad) (hc : Cached clean s ring la q holder)
    (hbusy : (s.b_flags (.buf n)).b_busy = true) (hq : .buf n ∉ q) :
    ∃ d', runSteps DiskQueue.step [.brelse (.buf n), .proceed] d = some d' ∧
      (s.brelse (.buf n)).Drives q d' := by
  have hfirst : DiskQueue.step d (.brelse (.buf n)) =
      some { d.brelseFlags (.buf n) with call := .releasing (.buf n) } := by
    refine if_pos ⟨h.call, trivial, ?_, mt (h.queued_iff hl).mp hq⟩
    rw [h.busy, hbusy]
  have hlinked := h.toLinked.brelse (n := n)
  have hbuf : (Ptr.buf n).IsBuf := trivial
  have hothers := (DiskQueue.Disk.brelseFlags_others (.buf n) d).trans
    (DiskQueue.Disk.brelseLinks_others (.buf n) (d.brelseFlags (.buf n)))
  refine ⟨{ (d.brelseFlags (.buf n)).brelseLinks (.buf n) with call := .none }, ?_,
    ⟨hlinked.forw, hlinked.back, hlinked.actf, hlinked.actl, hlinked.active, hlinked.busy⟩,
    (hc.brelse hbuf hbusy hq).queue, fun m hm => ?_, fun hactive => ?_, rfl⟩
  -- the queue's model makes the same step in two: the flags, then the links
  · rw [runSteps, hfirst]
    rfl
  · have hne := ne_of_mem_of_not_mem hm hq
    have hne' : Hdr.buf m ≠ .buf n := by simpa using hne
    have hflags : (s.brelse (.buf n)).b_flags (.buf m) = s.b_flags (.buf m) :=
      brelse_flags_of_ne hne (by simp)
    refine (h.asks m hm).congr ?_ (by rw [brelse_b_blkno]) (by rw [hflags]) (by rw [hflags])
      (hothers.b_dev _ hne') (hothers.b_blkno _ hne') (hothers.b_flags _ hne' (by simp))
    -- only a buffer in error loses its device, and `bp` is not the queued one
    rcases brelse_b_dev (.buf n) s (.buf m) with hdev | ⟨-, heq, -⟩
    · exact hdev
    · exact absurd heq hne
  · have hide : ((d.brelseFlags (.buf n)).brelseLinks (.buf n)).toIde = d.toIde := hothers.toIde
    show ((d.brelseFlags (.buf n)).brelseLinks (.buf n)).toIde.io_count = 1
    -- the drive's registers are not touched
    rw [hide]
    apply h.count
    rw [← hothers.d_active]
    exact hactive

/-- A process that has got a buffer may hand it to `rkstrategy`. -/
theorem step_rkstrategy (h : s.Drives q d) (hl : d.Lists qd lad)
    (hbusy : (s.b_flags (.buf n)).b_busy = true) (hq : .buf n ∉ q)
    (herror : (s.b_flags (.buf n)).b_error = false) (hdone : (s.b_flags (.buf n)).b_done = false) :
    DiskQueue.step d (.rkstrategy (.buf n) { s.b_flags (.buf n) with b_phys := false }
      (s.b_dev (.buf n)) (s.b_blkno (.buf n)) 0 0 0) =
      some ((filled s d n).rkstrategy (.buf n)) := by
  refine if_pos ⟨h.call, mt (h.queued_iff hl).mp hq, hbusy, hdone, herror, by simp, ?_⟩
  show (d.b_flags (.buf n)).b_busy = true
  rw [h.busy, hbusy]

/-- A request that the disk rejects. -/
theorem rkstrategy_rejected (h : s.Drives q d) (hl : d.Lists qd lad)
    (hc : Cached False s ring la q holder) (hbp : holder (.buf n) = .proc p) (hq : .buf n ∉ q)
    (herror : (s.b_flags (.buf n)).b_error = false) (hdone : (s.b_flags (.buf n)).b_done = false)
    (hreject : rkRejects (s.b_dev (.buf n)) (s.b_blkno (.buf n)) = true) :
    ∃ as d', runSteps DiskQueue.step as d = some d' ∧ (s.rkstrategy (.buf n)).Drives q d' := by
  have hbusy := hc.busy_of_holder (b := .buf n) (by simp [hbp])
  have hfill := asks_filled (s := s) (d := d) (n := n)
  have hfirst := h.step_rkstrategy hl hbusy hq herror hdone
  have hreject' := hreject
  rw [← hfill.dev, ← hfill.blkno] at hreject'
  rw [Disk.rkstrategy, if_pos hreject'] at hfirst
  -- the error is set, and then the transfer ends
  obtain ⟨d₁, hd₁⟩ : ∃ d₁ : Disk, d₁ = { Disk.setFlags (.buf n)
      (fun fl => { fl with b_error := true }) ((filled s d n).logged (.reject (.buf n))) with
        call := .rejecting (.buf n) } := ⟨_, rfl⟩
  rw [← hd₁] at hfirst
  have hcall : d₁.call = .rejecting (.buf n) := by rw [hd₁]
  obtain ⟨as, has⟩ := DiskQueue.Disk.exists_runSteps_rejecting hcall
  have hset : (s.setFlags (.buf n) fun fl => { fl with b_error := true }).Linked d₁ := by
    have hlinked := (h.toLinked.filled (n := n)).setFlags (n := n)
      (f := fun fl => { fl with b_error := true }) (g := fun fl => { fl with b_error := true })
      (fun _ => rfl) fun _ => rfl
    rw [hd₁]
    exact ⟨hlinked.forw, hlinked.back, hlinked.actf, hlinked.actl, hlinked.active, hlinked.busy⟩
  have hasync : (d₁.b_flags (.buf n)).b_async =
      ((s.setFlags (.buf n) fun fl => { fl with b_error := true }).b_flags (.buf n)).b_async := by
    rw [hd₁, setFlags_self]
    simp [Disk.setFlags, Disk.logged, filled]
  have hlinked := hset.iodone hasync
  have hothers := DiskQueue.Disk.iodone_others (.buf n) d₁
  have hqueue : LinkQueue (s.rkstrategy (.buf n)).av_forw .null (s.rkstrategy (.buf n)).d_actf
      (s.rkstrategy (.buf n)).d_actl q := by
    have hcached := hc.rkstrategy_rejected hreject id hbp hq
    split at hcached <;> exact hcached.queue
  rw [Bio.rkstrategy, if_pos hreject] at hqueue ⊢
  refine ⟨.rkstrategy (.buf n) { s.b_flags (.buf n) with b_phys := false } (s.b_dev (.buf n))
      (s.b_blkno (.buf n)) 0 0 0 :: as, { d₁.iodone (.buf n) with call := .none }, ?_,
    ⟨hlinked.forw, hlinked.back, hlinked.actf, hlinked.actl, hlinked.active, hlinked.busy⟩,
    hqueue, fun m hm => ?_, fun hactive => ?_, rfl⟩
  · rw [runSteps, hfirst]
    exact has
  · have hne := ne_of_mem_of_not_mem hm hq
    have hm' : m ≠ n := by simpa using hne
    have hbuf : Hdr.buf m ≠ .buf n := by simpa using hm'
    have hasks : Asks (s.setFlags (.buf n) fun fl => { fl with b_error := true }) d₁ m := by
      have hflags := setFlags_of_ne hne (fun fl => { fl with b_error := true }) s
      refine ((h.asks m hm).filled hm').congr rfl rfl (by rw [hflags]) (by rw [hflags]) ?_ ?_ ?_ <;>
        rw [hd₁]
      · rfl
      · rfl
      · exact update_of_ne hbuf ..
    have hend := hasks.iodone hm'
    exact ⟨hend.dev, hend.blkno, hend.read, hend.async, hend.phys⟩
  · have hide : (d₁.iodone (.buf n)).toIde = d.toIde := by
      rw [hothers.toIde, hd₁]
      rfl
    show (d₁.iodone (.buf n)).toIde.io_count = 1
    rw [hide]
    apply h.count
    have hsame : d₁.d_active = d.d_active := by
      rw [hd₁]
      rfl
    rw [← hsame, ← hothers.d_active]
    exact hactive

/-- A request that the disk takes. -/
theorem rkstrategy_queued (h : s.Drives q d) (hl : d.Lists qd lad)
    (hc : Cached False s ring la q holder) (hidle : s.d_active = 0 ↔ q = [])
    (hbp : holder (.buf n) = .proc p) (hq : .buf n ∉ q)
    (herror : (s.b_flags (.buf n)).b_error = false) (hdone : (s.b_flags (.buf n)).b_done = false)
    (hok : rkRejects (s.b_dev (.buf n)) (s.b_blkno (.buf n)) = false) :
    ∃ as d', runSteps DiskQueue.step as d = some d' ∧
      (s.rkstrategy (.buf n)).Drives (q ++ [.buf n]) d' := by
  have hbusy := hc.busy_of_holder (b := .buf n) (by simp [hbp])
  have hfill := asks_filled (s := s) (d := d) (n := n)
  -- the queue's model accepts the request: it is in bounds, as here
  have hfirst := h.step_rkstrategy hl hbusy hq herror hdone
  have hok' := hok
  rw [← hfill.dev, ← hfill.blkno] at hok'
  rw [Disk.rkstrategy, if_neg (by simp [hok'])] at hfirst
  obtain ⟨d₁, hd₁⟩ : ∃ d₁ : Disk, d₁ = { filled s d n with
      av_forw := update (filled s d n).av_forw (.buf n) .null
      call := .queueing (.buf n) } := ⟨_, rfl⟩
  rw [← hd₁] at hfirst
  -- the second step links the header
  have hsecond : DiskQueue.step d₁ .proceed = some { d₁.enqueue (.buf n) with call := .none } := by
    rw [DiskQueue.step, hd₁]
  have hforw : Linked { s with av_forw := update s.av_forw (.buf n) .null } d₁ := by
    have hlinked := h.toLinked.filled (n := n)
    rw [hd₁]
    exact ⟨update_ptr hlinked.forw (.buf n) .null, hlinked.back, hlinked.actf, hlinked.actl,
      hlinked.active, hlinked.busy⟩
  have hlinked : (s.rkstrategy (.buf n)).Linked (d₁.enqueue (.buf n)) := by
    unfold Bio.rkstrategy Disk.enqueue
    rw [if_neg (by simp [hok])]
    exact (hforw.logged (.accept (d₁.reqOf (.buf n)))).putLast.startIdle
  obtain ⟨hflags, hdev, hblkno⟩ := DiskQueue.Disk.enqueue_fields (.buf n) d₁
  refine ⟨[.rkstrategy (.buf n) { s.b_flags (.buf n) with b_phys := false } (s.b_dev (.buf n))
      (s.b_blkno (.buf n)) 0 0 0, .proceed], { d₁.enqueue (.buf n) with call := .none }, ?_,
    ⟨hlinked.forw, hlinked.back, hlinked.actf, hlinked.actl, hlinked.active, hlinked.busy⟩,
    (hc.rkstrategy_queued hok hbp hq hdone).queue, fun m hm => ?_, fun hactive => ?_, rfl⟩
  -- the two steps in a row
  · rw [runSteps, hfirst]
    show (DiskQueue.step d₁ .proceed).bind _ = _
    rw [hsecond]
    rfl
  -- what each queued header asks for: the new one has just been filled
  · obtain ⟨hsflags, hsdev, hsblkno⟩ := Bio.rkstrategy_queued hok
    have hasks : Asks s d₁ m := by
      rw [hd₁]
      by_cases hmn : m = n
      · subst hmn
        exact ⟨hfill.dev, hfill.blkno, hfill.read, hfill.async, hfill.phys⟩
      · have hmem : .buf m ∈ q := by
          rcases List.mem_append.mp hm with hm | hm
          · exact hm
          · exact absurd (by simpa using hm) hmn
        have hold := (h.asks m hmem).filled hmn
        exact ⟨hold.dev, hold.blkno, hold.read, hold.async, hold.phys⟩
    exact hasks.congr (by rw [hsdev]) (by rw [hsblkno]) (by rw [hsflags]) (by rw [hsflags])
      (congrFun hdev _) (congrFun hblkno _) (congrFun hflags _)
  · have hphys : (d₁.b_flags (.buf n)).b_phys = false := by
      rw [hd₁]
      exact hfill.phys
    -- an idle drive starts on the request; a busy one keeps its count
    refine DiskQueue.Disk.enqueue_count ?_ (fun hzero => ?_) hphys hactive
    · rw [hd₁]
      exact h.count
    · rw [hd₁] at hzero ⊢
      have hempty : q = [] := hidle.mp (h.active ▸ hzero)
      exact h.toLinked.actf_eq_null.mp (h.queue.first_eq_null_iff.mpr hempty)

/-- The interrupt at the end of a block. -/
theorem rkintr {srv : Server DiskQueue.Req ℕ} {lad : List Hdr} {pc : π → Pc} {held : π → List Ptr}
    {cur : Option π} (h : s.Drives q d) (hd : DiskQueue.Disk.Inv d srv lad)
    (hinv : InvAt False used s pc held cur ring la q holder) :
    ∃ as d' q', runSteps DiskQueue.step as d = some d' ∧ s.rkintr.Drives q' d' := by
  cases q with
  | nil =>
    refine ⟨[], d, [], rfl, ?_⟩
    rw [Bio.rkintr, if_pos (hinv.active.mpr rfl)]
    exact h
  | cons bp q =>
    have hbuf : bp.IsBuf := ((hinv.cached.bufs bp).queue List.mem_cons_self).1
    obtain ⟨n, rfl⟩ := hbuf.exists_buf
    have hactive : s.d_active ≠ 0 := by simp [hinv.active]
    have hfirst : s.d_actf = .buf n := hinv.cached.queue.first_cons
    have hfirst' : d.d_actf = .buf n := by
      rw [h.actf] at hfirst
      exact DiskQueue.Hdr.ptr_eq_buf.mp hfirst
    have hnodup := (List.nodup_cons.mp (List.nodup_cons.mp hinv.cached.queue.nodup).2).1
    have hactive' : d.d_active ≠ 0 := h.active ▸ hactive
    -- the interrupt is pending
    have hirq : d.drive.irq = true := by
      rw [hd.flight.irq]
      apply hd.running
      intro hnil
      have hqueue := h.queue_eq hd.core.lists
      simp [hnil] at hqueue
    obtain ⟨i, hi⟩ : ∃ i, i = ideintrData { d.toIde with drive := { d.drive with irq := false } } :=
      ⟨_, rfl⟩
    have hcount : i.io_count = 0 := by
      have hfields := DiskQueue.Disk.ideintrData_fields
        { d.toIde with drive := { d.drive with irq := false } }
      rw [hi, hfields.2.1]
      show d.io_count - 1 = 0
      rw [h.count hactive']
      rfl
    obtain ⟨d₁, hd₁⟩ : ∃ d₁ : Disk, d₁ = { d with
        toIde := i, d_active := 0, d_errcnt := 0, d_actf := d.av_forw (.buf n) } := ⟨_, rfl⟩
    have hstep : DiskQueue.step d .intr = some (d₁.iodone (.buf n)).rkstart := by
      have hlast : i.io_count ≤ 0 := by omega
      rw [DiskQueue.step, if_pos hirq, Disk.ideintr]
      dsimp only
      rw [← hi, if_pos hlast, Disk.rkintr, if_neg hactive', hd₁]
      dsimp only
      rw [hfirst']
    have hpop : Linked { s.fetch (.buf n) with
        d_active := 0, d_actf := (s.fetch (.buf n)).av_forw (.buf n) } d₁ := by
      rw [hd₁]
      unfold Bio.fetch
      split <;> exact ⟨h.forw, h.back, h.forw (.buf n), h.actl, rfl, h.busy⟩
    have hasks := h.asks n List.mem_cons_self
    have hasync : (d₁.b_flags (.buf n)).b_async =
        ((s.fetch (.buf n)).b_flags (.buf n)).b_async := by
      rw [fetch_b_flags, hd₁, hasks.async]
    have hlinked := (hpop.iodone hasync).rkstart
    have hqueue : LinkQueue s.rkintr.av_forw .null s.rkintr.d_actf s.rkintr.d_actl q := by
      have hend := hinv.cached.rkintr_cons hactive
      split at hend <;> exact hend.queue
    rw [Bio.rkintr, if_neg hactive, hfirst] at hqueue ⊢
    dsimp only at hqueue ⊢
    have hrest : ∀ m, .buf m ∈ q → Asks (Bio.iodone (.buf n) { s.fetch (.buf n) with
        d_active := 0, d_actf := (s.fetch (.buf n)).av_forw (.buf n) }) (d₁.iodone (.buf n)) m := by
      intro m hm
      have hmn : m ≠ n := by
        rintro rfl
        exact hnodup hm
      have hold := h.asks m (List.mem_cons_of_mem _ hm)
      refine Asks.iodone (hold.congr ?_ ?_ ?_ ?_ ?_ ?_ ?_) hmn <;>
        first | rw [hd₁] | simp only [fetch_b_dev, fetch_b_blkno, fetch_b_flags]
    obtain ⟨hflags, hdev, hblkno, hcall⟩ := DiskQueue.Disk.rkstart_fields (d₁.iodone (.buf n))
    refine ⟨[.intr], _, q, by rw [runSteps, hstep]; rfl, hlinked, hqueue, fun m hm => ?_,
      DiskQueue.Disk.rkstart_count ?_ fun hnull => ?_, ?_⟩
    · exact (hrest m hm).congr (by rw [rkstart_b_dev]) (by rw [rkstart_b_blkno])
        (by rw [rkstart_b_flags]) (by rw [rkstart_b_flags]) (congrFun hdev _) (congrFun hblkno _)
        (congrFun hflags _)
    · rw [(DiskQueue.Disk.iodone_others (.buf n) d₁).d_active, hd₁]
    · -- the next request is that of a buffer too
      have hactf : (d₁.iodone (.buf n)).d_actf = d.av_forw (.buf n) := by
        rw [(DiskQueue.Disk.iodone_others (.buf n) d₁).d_actf, hd₁]
      have hnext : s.av_forw (.buf n) = (d.av_forw (.buf n)).ptr := h.forw (.buf n)
      have htail := h.queue.pop
      rw [hactf] at hnull ⊢
      cases q with
      | nil =>
        have hempty := htail.first_eq_null_iff.mpr rfl
        rw [hnext] at hempty
        exact absurd (DiskQueue.Hdr.ptr_eq_null.mp hempty) hnull
      | cons b q =>
        have hb : b.IsBuf := ((hinv.cached.bufs b).queue (by simp)).1
        obtain ⟨m, rfl⟩ := hb.exists_buf
        have hm : d.av_forw (.buf n) = .buf m := by
          apply DiskQueue.Hdr.ptr_eq_buf.mp
          rw [← hnext]
          exact htail.first_cons
        rw [hm]
        exact (hrest m List.mem_cons_self).phys
    · rw [hcall, DiskQueue.Disk.iodone_call, hd₁]
      exact h.call

end Drives

/-- Calls and interrupts take the driver to where the cache is. -/
def Reached (d : Disk) (s : Bio π β) : Prop :=
  ∃ as d' q, runSteps DiskQueue.step as d = some d' ∧ s.Drives q d'

namespace Drives

variable {s s' : Bio π β} {d : Disk} {ring : Ptr → List Ptr} {la q : List Ptr}
  {holder : Ptr → Holder π} {n : Fin NBUF} {p : π} {qd lad : List Hdr}

/-- Flags that the driver does not look at, or those of a buffer that is not in the queue. -/
theorem setFlags (h : s.Drives q d) {x : Ptr} {f : BFlags → BFlags}
    (hbusy : (f (s.b_flags x)).b_busy = (s.b_flags x).b_busy)
    (hq : x ∈ q → (f (s.b_flags x)).b_read = (s.b_flags x).b_read ∧
      (f (s.b_flags x)).b_async = (s.b_flags x).b_async) : (s.setFlags x f).Drives q d := by
  refine h.quiet rfl rfl rfl rfl rfl (fun m => ?_) fun m hm => ⟨rfl, rfl, ?_⟩
  · by_cases hx : .buf m = x
    · rw [hx, Bio.setFlags_self, hbusy]
    · rw [setFlags_of_ne hx]
  · by_cases hx : .buf m = x
    · subst hx
      rw [Bio.setFlags_self]
      exact hq hm
    · rw [setFlags_of_ne hx]
      exact ⟨rfl, rfl⟩

/-- A buffer in hand is given a block. -/
theorem assign (h : s.Drives q d) (hbusy : (s.b_flags (.buf n)).b_busy = true) (hq : .buf n ∉ q)
    (dp : Ptr) (dev blkno : Dev) : (s.assign (.buf n) dp dev blkno).Drives q d := by
  refine h.quiet rfl rfl rfl rfl rfl (fun m => ?_) fun m hm => ?_
  · by_cases hm : m = n
    · rw [hm, hbusy]
      simp [Bio.assign, Bio.setFlags]
    · have hne : Ptr.buf m ≠ .buf n := by simpa using hm
      simp [Bio.assign, Bio.setFlags, update_of_ne hne]
  · have hne := ne_of_mem_of_not_mem hm hq
    simp [Bio.assign, Bio.setFlags, update_of_ne hne]

/-- A request for a buffer in hand, whose flags `f` sets just before. -/
theorem request {pc : π → Pc} {held : π → List Ptr} {cur : Option π} (h : s.Drives q d)
    (hl : d.Lists qd lad) (hinv : InvAt False used s pc held cur ring la q holder)
    {hand quiet calm hd : List Ptr} (ho : Owns s q holder p (.buf n :: hand) quiet calm hd)
    (hquiet : .buf n ∈ quiet) (f : BFlags → BFlags)
    (hbusy : (f (s.b_flags (.buf n))).b_busy = (s.b_flags (.buf n)).b_busy)
    (herror : (f (s.b_flags (.buf n))).b_error = false)
    (hdone : (f (s.b_flags (.buf n))).b_done = false)
    (hs : (s.setFlags (.buf n) f).strategy (.buf n) = some s') : Reached d s' := by
  have hq := ho.quiet (.buf n) (.inr hquiet)
  have hset := (hinv.nothing.setFlags ho.holder_eq hq f hbusy (by simp [herror])).cached
  have hdrives := h.setFlags hbusy fun hmem => absurd hmem hq
  rw [← setFlags_self (.buf n) f s] at herror hdone
  obtain ⟨dp, -, rfl⟩ := Option.map_eq_some_iff.mp hs
  by_cases hreject : rkRejects (s.b_dev (.buf n)) (s.b_blkno (.buf n)) = true
  · obtain ⟨as, d', hrun, h'⟩ :=
      hdrives.rkstrategy_rejected hl hset ho.holder_eq hq herror hdone hreject
    exact ⟨as, d', q, hrun, h'⟩
  · obtain ⟨as, d', hrun, h'⟩ := hdrives.rkstrategy_queued hl hset hinv.active ho.holder_eq hq
      herror hdone (Bool.not_eq_true _ ▸ hreject)
    exact ⟨as, d', _, hrun, h'⟩

end Drives

end Bio

open Bio (Reached)

namespace BioSys

variable [DecidableEq π] {s s' : BioSys π β} {d : Disk} {ring : Ptr → List Ptr} {la q : List Ptr}
  {holder : Ptr → Holder π} {p : π} {n : Fin NBUF} {qd lad : List Hdr}

/-! ## Pieces of code -/

section

variable (h : s.toBio.Drives q d) (hl : d.Lists qd lad)
  (hinv : InvAt False used s.toBio s.pc s.held s.cur ring la q holder)

include h

include hl hinv

end

/-! ## Runs -/

end BioSys

end UnixV6
