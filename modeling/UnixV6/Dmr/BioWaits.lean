import UnixV6.Dmr.BufferCache
import UnixV6.Dmr.Wakeups

/-!
# Waiting in the linked cache

`Bio` has its lists as links of the headers, `BufWait.Headers` has them as lists. `Seen` says that a
state of the one is seen in a state of the other. The routines of the two keep this, piece by piece,
and so a run of the linked cache is seen in a run of `BufWait` in which nobody calls `swap`.
-/

open Function

namespace UnixV6

open BufWait (Hdr Headers)

variable {π β : Type} {clean : Prop} {used : Dev → Dev → Prop}

namespace BufWait.Headers

variable (bp : Hdr) (t : Headers π)

theorem iodone_rktab : (t.iodone bp).rktab = t.rktab := by
  unfold iodone
  dsimp only
  split
  · rw [brelse_rktab]
    rfl
  · rfl

/-- An asynchronous buffer goes to the end of the available list. -/
theorem iodone_avail :
    (t.iodone bp).avail = if (t.b_flags bp).b_async then t.avail ++ [bp] else t.avail := by
  unfold iodone
  dsimp only
  rw [setFlags_self]
  split
  · rw [brelse_avail]
    rfl
  · rfl

end BufWait.Headers

/-! ## Headers -/

/-- The pointer to a header. The linked cache has no `swbuf`. -/
def BufWait.Hdr.ptr : Hdr → Ptr
  | .bfreelist => .bfreelist
  | .swbuf => .null
  | .buf n => .buf n

/-- The header that a pointer points at. -/
def Ptr.hdr : Ptr → Hdr
  | .bfreelist => .bfreelist
  | .buf n => .buf n
  | _ => .swbuf

@[simp]
theorem BufWait.Hdr.hdr_ptr (x : Hdr) : x.ptr.hdr = x := by
  cases x <;> rfl

theorem BufWait.Hdr.ptr_injective : Injective Hdr.ptr :=
  Function.LeftInverse.injective BufWait.Hdr.hdr_ptr

theorem BufWait.Hdr.ptr_eq_buf {x : Hdr} {n : Fin NBUF} : x.ptr = .buf n ↔ x = .buf n :=
  ⟨fun h => BufWait.Hdr.ptr_injective h, fun h => h ▸ rfl⟩

namespace Bio

/-- The headers themselves, and who sleeps on them. -/
structure Agrees (s : Bio π β) (t : Headers π) : Prop where
  flags : ∀ x, x ≠ .swbuf → t.b_flags x = s.b_flags x.ptr
  dev : ∀ n, t.b_dev (.buf n) = s.b_dev (.buf n)
  blkno : ∀ n, t.b_blkno (.buf n) = s.b_blkno (.buf n)
  active : t.d_active = s.d_active
  asleep : ∀ p, s.p_wchan p = (t.p_wchan p).map Hdr.ptr

/-- The headers of `t`, with its lists as the links of `s`. -/
structure Seen (s : Bio π β) (t : Headers π) : Prop extends Agrees s t where
  rktab : LinkRing s.b_forw s.b_back .rktab (t.rktab.map Hdr.ptr)
  avail : LinkRing s.av_forw s.av_back .bfreelist (t.avail.map Hdr.ptr)
  queue : LinkQueue s.av_forw .null s.d_actf s.d_actl (t.queue.map Hdr.ptr)

namespace Agrees

variable {s s' : Bio π β} {t t' : Headers π} {n : Fin NBUF}

/-- Both have the flags of each buffer. -/
theorem flags_buf (h : s.Agrees t) (n : Fin NBUF) : t.b_flags (.buf n) = s.b_flags (.buf n) :=
  h.flags _ (by simp)

/-- Two branches on what both have. -/
theorem ite {c d : Prop} [Decidable c] [Decidable d] (hcd : c ↔ d) {s₁ s₂ : Bio π β}
    {t₁ t₂ : Headers π} (h₁ : s₁.Agrees t₁) (h₂ : s₂.Agrees t₂) :
    (if c then s₁ else s₂).Agrees (if d then t₁ else t₂) := by
  by_cases hc : c
  · rw [if_pos hc, if_pos (hcd.mp hc)]
    exact h₁
  · rw [if_neg hc, if_neg (mt hcd.mpr hc)]
    exact h₂

/-- Flags of a header are set in both. -/
theorem setFlags (h : s.Agrees t) {x : Hdr} (hx : x ≠ .swbuf) (f : BFlags → BFlags) :
    (s.setFlags x.ptr f).Agrees (t.setFlags x f) := by
  refine ⟨fun y hy => ?_, h.dev, h.blkno, h.active, h.asleep⟩
  by_cases hyx : y = x
  · subst hyx
    rw [Bio.setFlags_self, Headers.setFlags_self, h.flags y hy]
  · rw [Bio.setFlags_of_ne (BufWait.Hdr.ptr_injective.ne hyx), Headers.setFlags_of_ne hyx,
      h.flags y hy]

/-- Flags of a buffer are set in both. -/
theorem setFlags_buf (h : s.Agrees t) (f : BFlags → BFlags) :
    (s.setFlags (.buf n) f).Agrees (t.setFlags (.buf n) f) :=
  h.setFlags (x := .buf n) (by simp) f

theorem wakeup (h : s.Agrees t) (x : Hdr) : (s.wakeup x.ptr).Agrees (t.wakeup x) := by
  refine ⟨h.flags, h.dev, h.blkno, h.active, fun p => ?_⟩
  have hiff : s.p_wchan p = some x.ptr ↔ t.p_wchan p = some x := by
    rw [h.asleep p]
    exact (Option.map_injective BufWait.Hdr.ptr_injective).eq_iff (b := some x)
  simp only [Bio.wakeup, Headers.wakeup, hiff]
  split
  · rfl
  · exact h.asleep p

/-- A field of the buffers that both have, after one buffer has got a new value. -/
theorem update_buf {γ : Type} {f : Ptr → γ} {g : Hdr → γ} (h : ∀ m, g (.buf m) = f (.buf m))
    (n : Fin NBUF) (a : γ) (m : Fin NBUF) :
    update g (.buf n) a (.buf m) = update f (.buf n) a (.buf m) := by
  by_cases hm : m = n
  · rw [hm, update_self, update_self]
  · have hbuf : Hdr.buf m ≠ .buf n := by simpa using hm
    have hptr : Ptr.buf m ≠ .buf n := by simpa using hm
    rw [update_of_ne hbuf, update_of_ne hptr, h m]

/-- The device of a buffer is set in both. -/
theorem setDev (h : s.Agrees t) {dev dev' : Dev} (hdev : dev' = dev) :
    Agrees { s with b_dev := update s.b_dev (.buf n) dev }
      { t with b_dev := update t.b_dev (.buf n) dev' } :=
  ⟨h.flags, hdev ▸ update_buf h.dev n dev, h.blkno, h.active, h.asleep⟩

/-- Nothing else of the two is looked at. -/
theorem congr (h : s.Agrees t) (hflags : s'.b_flags = s.b_flags) (hdev : s'.b_dev = s.b_dev)
    (hblkno : s'.b_blkno = s.b_blkno) (hactive : s'.d_active = s.d_active)
    (hwchan : s'.p_wchan = s.p_wchan) (hflags' : t'.b_flags = t.b_flags)
    (hdev' : t'.b_dev = t.b_dev) (hblkno' : t'.b_blkno = t.b_blkno)
    (hactive' : t'.d_active = t.d_active) (hwchan' : t'.p_wchan = t.p_wchan) : s'.Agrees t' := by
  refine ⟨?_, ?_, ?_, ?_, ?_⟩
  · rw [hflags, hflags']
    exact h.flags
  · rw [hdev, hdev']
    exact h.dev
  · rw [hblkno, hblkno']
    exact h.blkno
  · rw [hactive, hactive']
    exact h.active
  · rw [hwchan, hwchan']
    exact h.asleep

theorem notavail (h : s.Agrees t) : (s.notavail (.buf n)).Agrees (t.notavail (.buf n)) :=
  (h.setFlags_buf (n := n) fun fl => { fl with b_busy := true }).congr rfl rfl rfl rfl rfl rfl rfl
    rfl rfl rfl

theorem brelse (h : s.Agrees t) : (s.brelse (.buf n)).Agrees (t.brelse (.buf n)) := by
  -- the sleepers on the buffer
  have hwanted : (s.b_flags (.buf n)).b_wanted = true ↔ (t.b_flags (.buf n)).b_wanted = true := by
    rw [h.flags_buf n]
  have h₁ := ite hwanted (h.wakeup (.buf n)) h
  -- those on `bfreelist`
  have hfree := iff_of_eq (congrArg (fun fl : BFlags => fl.b_wanted = true)
    (h₁.flags .bfreelist (by simp)).symm)
  have h₂ := ite hfree
    ((h₁.setFlags (x := .bfreelist) (by simp) fun fl => { fl with b_wanted := false }).wakeup
      .bfreelist) h₁
  -- an error
  have herror := iff_of_eq (congrArg (fun fl : BFlags => fl.b_error = true)
    (h₂.flags_buf n).symm)
  have h₃ := ite herror (h₂.setDev (n := n) (congrArg (· ||| 0xff) (h₂.dev n))) h₂
  have h₄ := h₃.setFlags_buf (n := n)
    fun fl => { fl with b_wanted := false, b_busy := false, b_async := false }
  exact h₄.congr rfl rfl rfl rfl rfl rfl rfl rfl rfl rfl

/-- A buffer is given a block in both. -/
theorem assign (h : s.Agrees t) (dp : Ptr) (dev blkno : Dev) :
    (s.assign (.buf n) dp dev blkno).Agrees (t.assign (.buf n) dp dev blkno) := by
  obtain ⟨l, -, hassign⟩ := t.assign_eq (.buf n) dp dev blkno
  rw [hassign]
  have hset := h.setFlags_buf (n := n) fun _ => { b_busy := true }
  exact ⟨hset.flags, update_buf hset.dev n dev, update_buf hset.blkno n blkno, hset.active,
    hset.asleep⟩

theorem iodone (h : s.Agrees t) : (s.iodone (.buf n)).Agrees (t.iodone (.buf n)) := by
  have hdone := h.setFlags_buf (n := n) fun fl => { fl with b_done := true }
  have hasync := iff_of_eq (congrArg (fun fl : BFlags => fl.b_async = true)
    (hdone.flags_buf n).symm)
  exact ite hasync hdone.brelse
    ((hdone.setFlags_buf fun fl => { fl with b_wanted := false }).wakeup (.buf n))

/-- The next request starts in both, if both queues are empty or neither is. -/
theorem rkstart (h : s.Agrees t) (hqueue : s.d_actf = .null ↔ t.queue = []) :
    s.rkstart.Agrees t.rkstart := by
  unfold Bio.rkstart Headers.rkstart Bio.devstart
  refine ite hqueue h ?_
  split <;> exact ⟨h.flags, h.dev, h.blkno, congrArg (· + 1) h.active, h.asleep⟩

/-- A request is made in both. -/
theorem rkstrategy (h : s.Agrees t) : (s.rkstrategy (.buf n)).Agrees (t.rkstrategy (.buf n)) := by
  unfold Bio.rkstrategy Headers.rkstrategy
  refine ite (by rw [h.dev n, h.blkno n])
    (h.setFlags_buf fun fl => { fl with b_error := true }).iodone ?_
  dsimp only
  refine ite (by split_ifs <;> rw [h.active]) (rkstart ?_ ?_) ?_
  · split_ifs <;> exact h.congr rfl rfl rfl rfl rfl rfl rfl rfl rfl rfl
  · split_ifs with hnull <;> simp [hnull]
  · split_ifs <;> exact h.congr rfl rfl rfl rfl rfl rfl rfl rfl rfl rfl

/-- One turn of the loop of `binit`. -/
theorem binitBuf (h : s.Agrees t) : (s.binitBuf (.buf n)).Agrees (t.binitBuf (.buf n)) := by
  have hset := (h.setDev (n := n) (rfl : (-1 : Dev) = -1)).setFlags_buf (n := n)
    fun _ => { b_busy := true }
  unfold Bio.binitBuf Headers.binitBuf
  exact brelse (hset.congr rfl rfl rfl rfl rfl rfl rfl rfl rfl rfl)

/-- The loop of `binit`. -/
theorem foldl_binitBuf (h : s.Agrees t) (l : List (Fin NBUF)) :
    ((l.map Ptr.buf).foldl Bio.binitBuf s).Agrees ((l.map Hdr.buf).foldl Headers.binitBuf t) := by
  induction l generalizing s t with
  | nil => exact h
  | cons n l ih => exact ih h.binitBuf

end Agrees

namespace Seen

variable {s s' : Bio π β} {t : Headers π} {ring : Ptr → List Ptr} {la q : List Ptr}
  {holder : Ptr → Holder π} {n : Fin NBUF} {p : π}

/-- The lists of a state are those that its links make up. -/
theorem of_cached (ha : s.Agrees t) (h : Cached clean s ring la q holder)
    (hrktab : t.rktab.map Hdr.ptr = ring .rktab) (havail : t.avail.map Hdr.ptr = la)
    (hqueue : t.queue.map Hdr.ptr = q) : s.Seen t :=
  ⟨ha, hrktab ▸ h.rings .rktab (.inr rfl), havail ▸ h.avail, hqueue ▸ h.queue⟩

/-- The list of the device is the ring of its links. -/
theorem rktab_eq (hs : s.Seen t) (h : Cached clean s ring la q holder) :
    t.rktab.map Hdr.ptr = ring .rktab :=
  hs.rktab.unique (h.rings .rktab (.inr rfl))

/-- The available list is the ring of its links. -/
theorem avail_eq (hs : s.Seen t) (h : Cached clean s ring la q holder) : t.avail.map Hdr.ptr = la :=
  hs.avail.unique h.avail

/-- The queue of the disk is the chain of its links. -/
theorem queue_eq (hs : s.Seen t) (h : Cached clean s ring la q holder) : t.queue.map Hdr.ptr = q :=
  hs.queue.unique h.queue

/-- Flags of a header do not matter to the lists. -/
theorem setFlags (hs : s.Seen t) {x : Hdr} (hx : x ≠ .swbuf) (f : BFlags → BFlags) :
    (s.setFlags x.ptr f).Seen (t.setFlags x f) :=
  ⟨hs.toAgrees.setFlags hx f, hs.rktab, hs.avail, hs.queue⟩

/-- Flags of a buffer do not matter to the lists. -/
theorem setFlags_buf (hs : s.Seen t) (f : BFlags → BFlags) :
    (s.setFlags (.buf n) f).Seen (t.setFlags (.buf n) f) :=
  hs.setFlags (x := .buf n) (by simp) f

/-- The search of the list of the device. -/
theorem incore (hs : s.Seen t) (h : Cached clean s ring la q holder) (dev blkno : Dev) :
    s.incore dev blkno = (t.incore dev blkno).map (Option.map Hdr.ptr) := by
  have hfind : (ring .rktab).find? (fun bp => s.b_blkno bp = blkno ∧ s.b_dev bp = dev) =
      (t.rktab.find? fun x => t.b_blkno x = blkno ∧ t.b_dev x = dev).map Hdr.ptr := by
    rw [← hs.rktab_eq h, List.find?_map]
    congr 1
    refine List.find?_congr fun x hx => ?_
    have hbuf : x.ptr.IsBuf :=
      h.isBuf_of_mem_ring (.inr rfl) (hs.rktab_eq h ▸ List.mem_map_of_mem hx)
    obtain ⟨m, hm⟩ := hbuf.exists_buf
    obtain rfl := BufWait.Hdr.ptr_eq_buf.mp hm
    refine decide_eq_decide.mpr ?_
    rw [hs.dev m, hs.blkno m]
    exact Iff.rfl
  unfold Bio.incore Headers.incore
  cases hdp : devtab dev with
  | none => rfl
  | some dp =>
    rw [devtab_eq hdp]
    exact (h.search_eq dev blkno).trans (congrArg some hfind)

/-- A buffer is taken off both available lists. -/
theorem notavail (hs : s.Seen t) (h : Cached clean s ring la q holder) (hbp : .buf n ∈ la) (p : π) :
    (s.notavail (.buf n)).Seen (t.notavail (.buf n)) := by
  refine of_cached hs.toAgrees.notavail (h.notavail hbp p) (hs.rktab_eq h) ?_ (hs.queue_eq h)
  rw [← hs.avail_eq h]
  exact List.map_erase BufWait.Hdr.ptr_injective ..

/-- A buffer goes to the same end of both available lists. -/
theorem brelse (hs : s.Seen t) (h : Cached clean s ring la q holder)
    (hbusy : (s.b_flags (.buf n)).b_busy = true) (hq : .buf n ∉ q) :
    (s.brelse (.buf n)).Seen (t.brelse (.buf n)) := by
  refine of_cached hs.toAgrees.brelse (h.brelse trivial hbusy hq) ?_ ?_ ?_
  · rw [Headers.brelse_rktab, hs.rktab_eq h]
  · rw [Headers.brelse_avail, List.map_append, hs.avail_eq h]
    rfl
  · rw [Headers.brelse_queue, hs.queue_eq h]

/-- A buffer goes to the head of both lists of the device. -/
theorem assign (hs : s.Seen t) (h : Cached clean s ring la q holder)
    (hbp : holder (.buf n) = .proc p) (hq : .buf n ∉ q) {dev blkno : Dev} {dp : Ptr}
    (hdp : getblkTab dev = some dp) (hfresh : Fresh clean s dev blkno) :
    (s.assign (.buf n) dp dev blkno).Seen (t.assign (.buf n) dp dev blkno) := by
  have hcached := h.assign hbp hq hdp hfresh
  have herase : (t.rktab.erase (.buf n)).map Hdr.ptr = (ring .rktab).erase (.buf n) := by
    rw [← hs.rktab_eq h]
    exact List.map_erase BufWait.Hdr.ptr_injective ..
  refine of_cached (hs.toAgrees.assign dp dev blkno) hcached ?_ ?_ ?_
  · by_cases htab : dp = .rktab
    · subst htab
      simp only [Headers.assign, Headers.setFlags, if_true, List.map_cons, herase]
      rfl
    · simp only [Headers.assign, Headers.setFlags, if_neg htab, if_neg (Ne.symm htab), herase]
  · refine Eq.trans ?_ (hs.avail_eq h)
    unfold Headers.assign
    dsimp only
    split <;> rfl
  · refine Eq.trans ?_ (hs.queue_eq h)
    unfold Headers.assign
    dsimp only
    split <;> rfl

/-- A request that the disk takes. -/
theorem rkstrategy_queued (hs : s.Seen t) (h : Cached clean s ring la q holder)
    (hok : rkRejects (s.b_dev (.buf n)) (s.b_blkno (.buf n)) = false)
    (hbp : holder (.buf n) = .proc p) (hq : .buf n ∉ q)
    (hdone : (s.b_flags (.buf n)).b_done = false) :
    (s.rkstrategy (.buf n)).Seen (t.rkstrategy (.buf n)) := by
  have hcached := h.rkstrategy_queued hok hbp hq hdone
  have hagrees := hs.toAgrees.rkstrategy (n := n)
  rw [← hs.dev n, ← hs.blkno n] at hok
  rw [Headers.rkstrategy_queued hok] at hagrees ⊢
  refine of_cached hagrees hcached (hs.rktab_eq h) (hs.avail_eq h) ?_
  rw [List.map_append, hs.queue_eq h]
  rfl

/-- The end of a transfer of a buffer that is in the queue no more. -/
theorem iodone (hs : s.Agrees t) (h : Cached clean (s.setFlags (.buf n) fun fl =>
      { fl with b_done := true }) ring la q holder) (hbusy : (s.b_flags (.buf n)).b_busy = true)
    (hq : .buf n ∉ q) (hrktab : t.rktab.map Hdr.ptr = ring .rktab)
    (havail : t.avail.map Hdr.ptr = la) (hqueue : t.queue.map Hdr.ptr = q) :
    (s.iodone (.buf n)).Seen (t.iodone (.buf n)) := by
  have hcached := h.iodone trivial hbusy hq
  have hflags := hs.flags_buf n
  by_cases ha : (s.b_flags (.buf n)).b_async = true
  · rw [if_pos ha] at hcached
    refine of_cached hs.iodone hcached ?_ ?_ ?_
    · rw [Headers.iodone_rktab, hrktab]
    · rw [Headers.iodone_avail, hflags, if_pos ha, List.map_append, havail]
      rfl
    · rw [Headers.iodone_queue, hqueue]
  · rw [if_neg ha] at hcached
    refine of_cached hs.iodone hcached ?_ ?_ ?_
    · rw [Headers.iodone_rktab, hrktab]
    · rw [Headers.iodone_avail, hflags, if_neg ha, havail]
    · rw [Headers.iodone_queue, hqueue]

/-- A request that the disk rejects ends at once. -/
theorem rkstrategy_rejected (hs : s.Seen t) (h : Cached clean s ring la q holder)
    (hreject : rkRejects (s.b_dev (.buf n)) (s.b_blkno (.buf n)) = true) (hclean : ¬ clean)
    (hbp : holder (.buf n) = .proc p) (hq : .buf n ∉ q) :
    (s.rkstrategy (.buf n)).Seen (t.rkstrategy (.buf n)) := by
  have hbusy := h.busy_of_holder (b := .buf n) (by simp [hbp])
  have herror : Cached clean ((s.setFlags (.buf n) fun fl => { fl with b_error := true }).setFlags
      (.buf n) fun fl => { fl with b_done := true }) ring la q holder := by
    rw [setFlags_setFlags]
    exact h.setFlags _ rfl (fun _ => ⟨rfl, hclean⟩) (by simp [hbusy]) fun hmem => absurd hmem hq
  have hreject' := hreject
  rw [← hs.dev n, ← hs.blkno n] at hreject'
  rw [Bio.rkstrategy, if_pos hreject, Headers.rkstrategy_rejected hreject']
  exact iodone (hs.toAgrees.setFlags_buf _) herror (by rwa [Bio.setFlags_self]) hq (hs.rktab_eq h)
    (hs.avail_eq h) (hs.queue_eq h)

/-- The next request is started. -/
theorem rkstart (hs : s.Seen t) : s.rkstart.Seen t.rkstart := by
  have hnil : s.d_actf = .null ↔ t.queue = [] := by
    rw [hs.queue.first_eq_null_iff, List.map_eq_nil_iff]
  have hagrees := hs.toAgrees.rkstart hnil
  rw [Headers.rkstart_eq] at hagrees ⊢
  unfold Bio.rkstart Bio.devstart at hagrees ⊢
  split_ifs at hagrees ⊢ <;> exact ⟨hagrees, hs.rktab, hs.avail, hs.queue⟩

/-- The interrupt. -/
theorem rkintr (hs : s.Seen t) (h : Cached clean s ring la q holder)
    (hactive : s.d_active = 0 ↔ q = []) : s.rkintr.Seen t.rkintr := by
  unfold Bio.rkintr Headers.rkintr
  rw [hs.active]
  by_cases hzero : s.d_active = 0
  · rw [if_pos hzero, if_pos hzero]
    exact hs
  · rw [if_neg hzero, if_neg hzero]
    have hqueue := hs.queue_eq h
    cases hlist : t.queue with
    | nil =>
      rw [hlist] at hqueue
      exact absurd (hactive.mpr hqueue.symm) hzero
    | cons x m =>
      rw [hlist, List.map_cons] at hqueue
      subst hqueue
      obtain ⟨hbuf, hbusy, hdone, -⟩ := (h.bufs x.ptr).queue List.mem_cons_self
      obtain ⟨n, hn⟩ := hbuf.exists_buf
      obtain rfl := BufWait.Hdr.ptr_eq_buf.mp hn
      have hq : Ptr.buf n ∉ m.map Hdr.ptr :=
        (List.nodup_cons.mp (List.nodup_cons.mp h.queue.nodup).2).1
      have hfirst : s.d_actf = .buf n := h.queue.first_cons
      have hflags := fetch_b_flags (.buf n) s
      -- the request is taken off the queue
      have hpop : Cached clean (Bio.setFlags (.buf n) (fun fl => { fl with b_done := true })
          { s.fetch (.buf n) with
            d_active := 0
            d_actf := (s.fetch (.buf n)).av_forw (.buf n) }) ring la (m.map Hdr.ptr) holder := by
        refine ((h.fetch (.buf n)).pop 0).setFlags _ rfl (fun herror => ⟨rfl, ?_⟩) (fun hfree => ?_)
          fun hmem => absurd hmem hq
        · exact (((h.fetch (.buf n)).bufs (.buf n)).error trivial herror).2
        · exact ((h.fetch (.buf n)).bufs (.buf n)).calm trivial hfree
      have hagrees : Agrees { s.fetch (.buf n) with
          d_active := 0
          d_actf := (s.fetch (.buf n)).av_forw (.buf n) } { t with d_active := 0, queue := m } := by
        unfold fetch
        split <;> exact ⟨hs.flags, hs.dev, hs.blkno, rfl, hs.asleep⟩
      rw [hfirst]
      exact (iodone hagrees hpop (hflags ▸ hbusy) hq (hs.rktab_eq h) (hs.avail_eq h) rfl).rkstart

/-- A request of a process, whatever comes of it. -/
theorem strategy (hs : s.Seen t) (h : Cached False s ring la q holder)
    (hbp : holder (.buf n) = .proc p) (hq : .buf n ∉ q)
    (hdone : (s.b_flags (.buf n)).b_done = false) (hb : s.strategy (.buf n) = some s') :
    ∃ t', t.strategy (.buf n) = some t' ∧ s'.Seen t' := by
  obtain ⟨dp, hdp, rfl⟩ := Option.map_eq_some_iff.mp hb
  refine ⟨t.rkstrategy (.buf n), ?_, ?_⟩
  · rw [Headers.strategy, hs.dev n, hdp]
    rfl
  · cases hok : rkRejects (s.b_dev (.buf n)) (s.b_blkno (.buf n)) with
    | true => exact hs.rkstrategy_rejected h hok id hbp hq
    | false => exact hs.rkstrategy_queued h hok hbp hq hdone

end Seen

end Bio

/-! ## Processes -/

def GetblkRet.toWait : GetblkRet → BufWait.GetblkRet
  | .user => .user
  | .bread dev blkno => .bread dev blkno
  | .breada dev blkno rablkno => .breada dev blkno rablkno
  | .readahead dev blkno rbp => .readahead dev blkno (rbp.map Ptr.hdr)

def BwriteRet.toWait : BwriteRet → BufWait.BwriteRet
  | .user => .user
  | .getblk dev blkno k => .getblk dev blkno k.toWait
  | .bflush dev => .bflush dev

def IowaitRet.toWait : IowaitRet → BufWait.IowaitRet
  | .read _ _ => .read
  | .write k => .write k.toWait

/-- The same piece of code, on the headers of `BufWait`. -/
def Pc.toWait : Pc → BufWait.Pc
  | .user => .user
  | .getblk dev blkno k => .getblk dev blkno k.toWait
  | .getblkFound bp dev blkno k => .getblkFound bp.hdr dev blkno k.toWait
  | .getblkTake bp k => .getblkTake bp.hdr k.toWait
  | .getblkAvail dev blkno k => .getblkAvail dev blkno k.toWait
  | .getblkOldest dev blkno k => .getblkOldest dev blkno k.toWait
  | .getblkReuse bp dev blkno k => .getblkReuse bp.hdr dev blkno k.toWait
  | .bread bp _ _ => .bread bp.hdr
  | .breada dev blkno rablkno => .breada dev blkno rablkno
  | .breadaRead bp dev blkno rablkno => .breadaRead bp.hdr dev blkno rablkno
  | .readahead dev blkno rablkno rbp => .readahead dev blkno rablkno (rbp.map Ptr.hdr)
  | .readaheadRead rabp dev blkno rbp => .readaheadRead rabp.hdr dev blkno (rbp.map Ptr.hdr)
  | .bwrite bp k => .bwrite bp.hdr k.toWait
  | .iowait bp k => .iowait bp.hdr k.toWait
  | .brelse bp k => .brelse bp.hdr k.toWait
  | .bflush dev => .bflush dev

def Call.toWait : Call → BufWait.Call
  | .getblk dev blkno => .getblk dev blkno
  | .bread dev blkno => .bread dev blkno
  | .breada dev blkno rablkno => .breada dev blkno rablkno
  | .bwrite bp => .bwrite bp.hdr
  | .bawrite bp => .bawrite bp.hdr
  | .bdwrite bp => .bdwrite bp.hdr
  | .brelse bp => .brelse bp.hdr
  | .bflush dev => .bflush dev

namespace BioSys

/-- A state of the linked cache is seen in a state of `BufWait`. -/
structure Seen (s : BioSys π β) (t : BufWait.Sys π) : Prop where
  headers : s.toBio.Seen t.toHeaders
  pc : ∀ p, t.pc p = (s.pc p).toWait
  held : ∀ p, s.held p = (t.held p).map Hdr.ptr
  cur : t.cur = s.cur

variable [DecidableEq π] {s s' : BioSys π β} {t : BufWait.Sys π} {b : Bio π β} {c : Headers π}
  {p : π} {n : Fin NBUF} {ring : Ptr → List Ptr} {la q : List Ptr} {holder : Ptr → Holder π}
  {swapdev : Dev}

/-- The program counters of all processes, when one of them goes on. -/
theorem update_toWait (h : s.Seen t) (p : π) (k : Pc) (r : π) :
    update t.pc p k.toWait r = (update s.pc p k r).toWait := by
  by_cases hr : r = p
  · rw [hr, update_self, update_self]
  · rw [update_of_ne hr, update_of_ne hr, h.pc r]

/-- The process goes on in both. -/
theorem seen_goto (h : s.Seen t) (hb : b.Seen c) (p : π) (k : Pc) :
    (goto p k { s with toBio := b }).Seen (BufWait.Sys.goto p k.toWait { t with toHeaders := c }) :=
  ⟨hb, update_toWait h p k, h.held, rfl⟩

theorem seen_leave (h : s.Seen t) (hb : b.Seen c) (p : π) :
    (leave p { s with toBio := b }).Seen (BufWait.Sys.leave p { t with toHeaders := c }) :=
  ⟨hb, update_toWait h p .user, h.held, rfl⟩

/-- The process leaves with the same buffer in both. -/
theorem seen_leaveWith (h : s.Seen t) (hb : b.Seen c) (p : π) :
    (leaveWith p (.buf n) { s with toBio := b }).Seen
      (BufWait.Sys.leaveWith p (.buf n) { t with toHeaders := c }) := by
  refine ⟨hb, update_toWait h p .user, fun r => ?_, rfl⟩
  simp only [leaveWith, leave, BufWait.Sys.leaveWith, BufWait.Sys.leave]
  by_cases hr : r = p
  · rw [hr, update_self, update_self, h.held p]
    rfl
  · rw [update_of_ne hr, update_of_ne hr, h.held r]

/-- The process goes to sleep on the same header in both. -/
theorem seen_sleep (h : s.Seen t) (hb : b.Seen c) (p : π) (x : Hdr) (k : Pc) :
    (sleep p x.ptr k { s with toBio := b }).Seen
      (BufWait.Sys.sleep p x k.toWait { t with toHeaders := c }) := by
  refine ⟨⟨⟨hb.flags, hb.dev, hb.blkno, hb.active, fun r => ?_⟩, hb.rktab, hb.avail, hb.queue⟩,
    update_toWait h p k, h.held, rfl⟩
  simp only [sleep, BufWait.Sys.sleep]
  by_cases hr : r = p
  · rw [hr, update_self, update_self]
    rfl
  · rw [update_of_ne hr, update_of_ne hr, hb.asleep r]

/-- `getblk` returns to the same routine in both. -/
theorem seen_getblkReturn (h : s.Seen t) (hb : b.Seen c) (p : π) (k : GetblkRet) :
    (getblkReturn p (.buf n) k { s with toBio := b }).Seen
      (BufWait.Sys.getblkReturn p (.buf n) k.toWait { t with toHeaders := c }) := by
  cases k with
  | user => exact seen_leaveWith h hb p
  | bread dev blkno => exact seen_goto h hb p (.bread (.buf n) dev blkno)
  | breada dev blkno rablkno => exact seen_goto h hb p (.breadaRead (.buf n) dev blkno rablkno)
  | readahead dev blkno rbp => exact seen_goto h hb p (.readaheadRead (.buf n) dev blkno rbp)

/-- `bwrite` returns to the same routine in both. -/
theorem seen_bwriteReturn (h : s.Seen t) (hb : b.Seen c) (p : π) (k : BwriteRet) :
    (bwriteReturn p k { s with toBio := b }).Seen
      (BufWait.Sys.bwriteReturn p k.toWait { t with toHeaders := c }) := by
  cases k with
  | user => exact seen_leave h hb p
  | getblk dev blkno k => exact seen_goto h hb p (.getblk dev blkno k)
  | bflush dev => exact seen_goto h hb p (.bflush dev)

/-- `breada` ends in the same way in both. -/
theorem seen_breadaReturn (h : s.Seen t) (hb : b.Seen c) (p : π) (dev blkno : Dev)
    (rbp : Option Ptr) :
    (breadaReturn p dev blkno rbp { s with toBio := b }).Seen
      (BufWait.Sys.breadaReturn p dev blkno (rbp.map Ptr.hdr) { t with toHeaders := c }) := by
  cases rbp with
  | none => exact seen_goto h hb p (.getblk dev blkno (.bread dev blkno))
  | some bp => exact seen_goto h hb p (.iowait bp (.read dev blkno))

omit [DecidableEq π] in
/-- What `incore` finds. -/
theorem seen_incore (h : s.Seen t) (hc : Cached clean s.toBio ring la q holder) {dev blkno : Dev}
    {found : Option Ptr} (hfound : s.incore dev blkno = some found) :
    ∃ found', t.incore dev blkno = some found' ∧ found = found'.map Hdr.ptr := by
  rw [h.headers.incore hc] at hfound
  obtain ⟨found', h', heq⟩ := Option.map_eq_some_iff.mp hfound
  exact ⟨found', h', heq.symm⟩

section

variable (hinv : InvAt False used s.toBio s.pc s.held s.cur ring la q holder) (h : s.Seen t)

include hinv h

omit [DecidableEq π] in
/-- A request for a buffer in hand, whose flags `f` sets just before. -/
theorem seen_request {hand quiet calm hd : List Ptr}
    (ho : Owns s.toBio q holder p (.buf n :: hand) quiet calm hd) (hquiet : .buf n ∈ quiet)
    (f : BFlags → BFlags)
    (hbusy : (f (s.b_flags (.buf n))).b_busy = (s.b_flags (.buf n)).b_busy)
    (herror : (f (s.b_flags (.buf n))).b_error = false)
    (hdone : (f (s.b_flags (.buf n))).b_done = false)
    (hb : (s.toBio.setFlags (.buf n) f).strategy (.buf n) = some b) :
    ∃ c, (t.toHeaders.setFlags (.buf n) f).strategy (.buf n) = some c ∧ b.Seen c := by
  have hq := ho.quiet (.buf n) (.inr hquiet)
  have hset := (hinv.nothing.setFlags ho.holder_eq hq f hbusy (by simp [herror])).cached
  exact (h.headers.setFlags_buf f).strategy hset ho.holder_eq hq
    (by rwa [Bio.setFlags_self]) hb

/-- `getblk` looks for the block. -/
theorem seen_getblk {dev blkno : Dev} {k : GetblkRet} (hpc : s.pc p = .getblk dev blkno k)
    (hs : s.runPiece p = some s') : ∃ t', t.runPiece swapdev p = some t' ∧ s'.Seen t' := by
  have ht := h.pc p
  rw [hpc] at ht
  simp only [runPiece, hpc] at hs
  simp only [BufWait.Sys.runPiece, ht, Pc.toWait]
  split at hs
  · next hneg =>
    obtain rfl := Option.some.inj hs
    rw [if_pos hneg]
    exact ⟨_, rfl, seen_goto h h.headers p (.getblkAvail dev blkno k)⟩
  · next hneg =>
    obtain ⟨found, hfound, rfl⟩ := Option.map_eq_some_iff.mp hs
    obtain ⟨found', hfound', rfl⟩ := seen_incore h hinv.cached hfound
    rw [if_neg hneg, hfound']
    cases found' with
    | none => exact ⟨_, rfl, seen_goto h h.headers p (.getblkAvail dev blkno k)⟩
    | some x =>
      refine ⟨_, rfl, ?_⟩
      have hgoto := seen_goto h h.headers p (.getblkFound x.ptr dev blkno k)
      rwa [Pc.toWait, BufWait.Hdr.hdr_ptr] at hgoto

/-- `getblk` has found the block, and sleeps if its buffer is busy. -/
theorem seen_getblkFound {bp : Ptr} {dev blkno : Dev} {k : GetblkRet}
    (hpc : s.pc p = .getblkFound bp dev blkno k) (hs : s.runPiece p = some s') :
    ∃ t', t.runPiece swapdev p = some t' ∧ s'.Seen t' := by
  obtain ⟨-, ⟨hbuf, -, -⟩, -⟩ := hpc ▸ hinv.procs p
  obtain ⟨n, rfl⟩ := hbuf.exists_buf
  have ht := h.pc p
  rw [hpc] at ht
  simp only [runPiece, hpc] at hs
  simp only [BufWait.Sys.runPiece, ht, Pc.toWait, Ptr.hdr, h.headers.flags_buf n]
  split at hs
  · next hbusy =>
    obtain rfl := Option.some.inj hs
    rw [if_pos hbusy]
    exact ⟨_, rfl, seen_sleep h (h.headers.setFlags_buf _) p (.buf n)
      (.getblk dev blkno k)⟩
  · next hbusy =>
    obtain rfl := Option.some.inj hs
    rw [if_neg hbusy]
    exact ⟨_, rfl, seen_goto h h.headers p (.getblkTake (.buf n) k)⟩

/-- `getblk` takes the buffer that it has found. -/
theorem seen_getblkTake {bp : Ptr} {k : GetblkRet} (hpc : s.pc p = .getblkTake bp k)
    (hs : s.runPiece p = some s') : ∃ t', t.runPiece swapdev p = some t' ∧ s'.Seen t' := by
  obtain ⟨-, hmem, -⟩ := hpc ▸ hinv.procs p
  obtain ⟨n, rfl⟩ := ((hinv.cached.bufs bp).avail.mp hmem).1.exists_buf
  have ht := h.pc p
  rw [hpc] at ht
  simp only [runPiece, hpc] at hs
  obtain rfl := Option.some.inj hs
  simp only [BufWait.Sys.runPiece, ht, Pc.toWait, Ptr.hdr]
  exact ⟨_, rfl, seen_getblkReturn h (h.headers.notavail hinv.cached hmem p) p k⟩

omit hinv in
/-- `getblk` has not found the block, and sleeps if no buffer is available. -/
theorem seen_getblkAvail {dev blkno : Dev} {k : GetblkRet}
    (hpc : s.pc p = .getblkAvail dev blkno k) (hs : s.runPiece p = some s') :
    ∃ t', t.runPiece swapdev p = some t' ∧ s'.Seen t' := by
  have ht := h.pc p
  rw [hpc] at ht
  have hnil : s.av_forw .bfreelist = .bfreelist ↔ t.avail = [] := by
    rw [h.headers.avail.next_head_eq_iff, List.map_eq_nil_iff]
  simp only [runPiece, hpc, hnil] at hs
  simp only [BufWait.Sys.runPiece, ht, Pc.toWait]
  split at hs
  · next hempty =>
    obtain rfl := Option.some.inj hs
    rw [if_pos hempty]
    exact ⟨_, rfl, seen_sleep h (h.headers.setFlags (x := .bfreelist) (by simp) _) p .bfreelist
      (.getblk dev blkno k)⟩
  · next hempty =>
    obtain rfl := Option.some.inj hs
    rw [if_neg hempty]
    exact ⟨_, rfl, seen_goto h h.headers p (.getblkOldest dev blkno k)⟩

/-- `getblk` takes the oldest available buffer. -/
theorem seen_getblkOldest {dev blkno : Dev} {k : GetblkRet}
    (hpc : s.pc p = .getblkOldest dev blkno k) (hs : s.runPiece p = some s') :
    ∃ t', t.runPiece swapdev p = some t' ∧ s'.Seen t' := by
  obtain ⟨-, ⟨-, hne⟩, -⟩ := hpc ▸ hinv.procs p
  have ht := h.pc p
  rw [hpc] at ht
  simp only [runPiece, hpc] at hs
  obtain rfl := Option.some.inj hs
  simp only [BufWait.Sys.runPiece, ht, Pc.toWait]
  -- the first of the available buffers
  obtain ⟨bp, l, rfl⟩ := List.exists_cons_of_ne_nil hne
  obtain ⟨n, rfl⟩ := ((hinv.cached.bufs bp).avail.mp List.mem_cons_self).1.exists_buf
  obtain ⟨x, m, hlist, hx, -⟩ := List.map_eq_cons_iff.mp (h.headers.avail_eq hinv.cached)
  obtain rfl := BufWait.Hdr.ptr_eq_buf.mp hx
  rw [hlist, hinv.cached.avail.next_head]
  exact ⟨_, rfl, seen_goto h (h.headers.notavail hinv.cached List.mem_cons_self p) p
    (.getblkReuse (.buf n) dev blkno k)⟩

/-- `getblk` writes a delayed buffer out, and associates another one with the block. -/
theorem seen_getblkReuse {bp : Ptr} {dev blkno : Dev} {k : GetblkRet}
    (hpc : s.pc p = .getblkReuse bp dev blkno k) (hs : s.runPiece p = some s') :
    ∃ t', t.runPiece swapdev p = some t' ∧ s'.Seen t' := by
  obtain ⟨ho, hfresh, -⟩ := hpc ▸ hinv.procs p
  obtain ⟨n, rfl⟩ := ho.exists_buf hinv.cached
  have ht := h.pc p
  rw [hpc] at ht
  simp only [runPiece, hpc] at hs
  simp only [BufWait.Sys.runPiece, ht, Pc.toWait, Ptr.hdr, h.headers.flags_buf n]
  split at hs
  · next hdelwri =>
    obtain rfl := Option.some.inj hs
    rw [if_pos hdelwri]
    exact ⟨_, rfl, seen_goto h (h.headers.setFlags_buf _) p
      (.bwrite (.buf n) (.getblk dev blkno k))⟩
  · next hdelwri =>
    obtain ⟨dp, hdp, rfl⟩ := Option.map_eq_some_iff.mp hs
    rw [if_neg hdelwri, hdp]
    have hq := ho.quiet (.buf n) (.inr List.mem_cons_self)
    exact ⟨_, rfl, seen_getblkReturn h
      (h.headers.assign hinv.cached ho.holder_eq hq hdp hfresh) p k⟩

/-- `bread` starts the transfer, unless the block is in core. -/
theorem seen_bread {bp : Ptr} {dev blkno : Dev} (hpc : s.pc p = .bread bp dev blkno)
    (hs : s.runPiece p = some s') : ∃ t', t.runPiece swapdev p = some t' ∧ s'.Seen t' := by
  obtain ⟨ho, -, -⟩ := hpc ▸ hinv.procs p
  obtain ⟨n, rfl⟩ := ho.exists_buf hinv.cached
  have ht := h.pc p
  rw [hpc] at ht
  simp only [runPiece, hpc] at hs
  simp only [BufWait.Sys.runPiece, ht, Pc.toWait, Ptr.hdr, h.headers.flags_buf n]
  split at hs
  · next hdone =>
    obtain rfl := Option.some.inj hs
    rw [if_pos hdone]
    exact ⟨_, rfl, seen_leaveWith h h.headers p⟩
  · next hdone =>
    obtain ⟨b, hb, rfl⟩ := Option.map_eq_some_iff.mp hs
    have hdone' := Bool.not_eq_true _ ▸ hdone
    obtain ⟨c, hc, hbc⟩ := seen_request hinv h ho List.mem_cons_self
      (fun fl => { fl with b_read := true }) rfl (hinv.cached.error_eq_false trivial hdone') hdone'
      hb
    rw [if_neg hdone, hc]
    exact ⟨_, rfl, seen_goto h hbc p (.iowait (.buf n) (.read dev blkno))⟩

/-- `breada` looks for the first block. -/
theorem seen_breada {dev blkno rablkno : Dev} (hpc : s.pc p = .breada dev blkno rablkno)
    (hs : s.runPiece p = some s') : ∃ t', t.runPiece swapdev p = some t' ∧ s'.Seen t' := by
  have ht := h.pc p
  rw [hpc] at ht
  simp only [runPiece, hpc] at hs
  simp only [BufWait.Sys.runPiece, ht, Pc.toWait]
  obtain ⟨found, hfound, rfl⟩ := Option.map_eq_some_iff.mp hs
  obtain ⟨found', hfound', rfl⟩ := seen_incore h hinv.cached hfound
  rw [hfound']
  cases found' with
  | none => exact ⟨_, rfl, seen_goto h h.headers p (.getblk dev blkno (.breada dev blkno rablkno))⟩
  | some x => exact ⟨_, rfl, seen_goto h h.headers p (.readahead dev blkno rablkno none)⟩

/-- `breada` starts the transfer of the first block. -/
theorem seen_breadaRead {bp : Ptr} {dev blkno rablkno : Dev}
    (hpc : s.pc p = .breadaRead bp dev blkno rablkno) (hs : s.runPiece p = some s') :
    ∃ t', t.runPiece swapdev p = some t' ∧ s'.Seen t' := by
  obtain ⟨ho, -, -⟩ := hpc ▸ hinv.procs p
  obtain ⟨n, rfl⟩ := ho.exists_buf hinv.cached
  have ht := h.pc p
  rw [hpc] at ht
  simp only [runPiece, hpc] at hs
  simp only [BufWait.Sys.runPiece, ht, Pc.toWait, Ptr.hdr, h.headers.flags_buf n]
  split at hs
  · next hdone =>
    obtain rfl := Option.some.inj hs
    rw [if_pos hdone]
    exact ⟨_, rfl, seen_goto h h.headers p (.readahead dev blkno rablkno (some (.buf n)))⟩
  · next hdone =>
    obtain ⟨b, hb, rfl⟩ := Option.map_eq_some_iff.mp hs
    have hdone' := Bool.not_eq_true _ ▸ hdone
    obtain ⟨c, hc, hbc⟩ := seen_request hinv h ho List.mem_cons_self
      (fun fl => { fl with b_read := true }) rfl (hinv.cached.error_eq_false trivial hdone') hdone'
      hb
    rw [if_neg hdone, hc]
    exact ⟨_, rfl, seen_goto h hbc p (.readahead dev blkno rablkno (some (.buf n)))⟩

/-- `breada` looks for the block to be read ahead. -/
theorem seen_readahead {dev blkno rablkno : Dev} {rbp : Option Ptr}
    (hpc : s.pc p = .readahead dev blkno rablkno rbp) (hs : s.runPiece p = some s') :
    ∃ t', t.runPiece swapdev p = some t' ∧ s'.Seen t' := by
  have ht := h.pc p
  rw [hpc] at ht
  have hreturn := seen_breadaReturn h h.headers p dev blkno rbp
  simp only [runPiece, hpc] at hs
  simp only [BufWait.Sys.runPiece, ht, Pc.toWait]
  split at hs
  · next hzero =>
    obtain rfl := Option.some.inj hs
    rw [if_pos hzero]
    exact ⟨_, rfl, hreturn⟩
  · next hzero =>
    obtain ⟨found, hfound, rfl⟩ := Option.map_eq_some_iff.mp hs
    obtain ⟨found', hfound', rfl⟩ := seen_incore h hinv.cached hfound
    rw [if_neg hzero, hfound']
    cases found' with
    | none =>
      exact ⟨_, rfl, seen_goto h h.headers p (.getblk dev rablkno (.readahead dev blkno rbp))⟩
    | some x => exact ⟨_, rfl, hreturn⟩

/-- `breada` starts the transfer of the block to be read ahead. -/
theorem seen_readaheadRead {bp : Ptr} {dev blkno : Dev} {rbp : Option Ptr}
    (hpc : s.pc p = .readaheadRead bp dev blkno rbp) (hs : s.runPiece p = some s') :
    ∃ t', t.runPiece swapdev p = some t' ∧ s'.Seen t' := by
  obtain ⟨ho, -, -⟩ := hpc ▸ hinv.procs p
  obtain ⟨n, rfl⟩ := ho.exists_buf hinv.cached
  have ht := h.pc p
  rw [hpc] at ht
  simp only [runPiece, hpc] at hs
  simp only [BufWait.Sys.runPiece, ht, Pc.toWait, Ptr.hdr, h.headers.flags_buf n]
  split at hs
  · next hdone =>
    obtain rfl := Option.some.inj hs
    have hbusy := hinv.cached.busy_of_holder (b := .buf n) (by simp [ho.holder_eq])
    have hq := ho.quiet (.buf n) (.inr List.mem_cons_self)
    rw [if_pos hdone]
    exact ⟨_, rfl, seen_breadaReturn h (h.headers.brelse hinv.cached hbusy hq) p dev blkno rbp⟩
  · next hdone =>
    obtain ⟨b, hb, rfl⟩ := Option.map_eq_some_iff.mp hs
    have hdone' := Bool.not_eq_true _ ▸ hdone
    obtain ⟨c, hc, hbc⟩ := seen_request hinv h ho List.mem_cons_self
      (fun fl => { fl with b_read := true, b_async := true }) rfl
      (hinv.cached.error_eq_false trivial hdone') hdone' hb
    rw [if_neg hdone, hc]
    exact ⟨_, rfl, seen_breadaReturn h hbc p dev blkno rbp⟩

/-- `bwrite` starts the transfer. -/
theorem seen_bwrite {bp : Ptr} {k : BwriteRet} (hpc : s.pc p = .bwrite bp k)
    (hs : s.runPiece p = some s') : ∃ t', t.runPiece swapdev p = some t' ∧ s'.Seen t' := by
  obtain ⟨ho, -, -⟩ := hpc ▸ hinv.procs p
  obtain ⟨n, rfl⟩ := ho.exists_buf hinv.cached
  have ht := h.pc p
  rw [hpc] at ht
  simp only [runPiece, hpc] at hs
  simp only [BufWait.Sys.runPiece, ht, Pc.toWait, Ptr.hdr, h.headers.flags_buf n]
  obtain ⟨b, hb, rfl⟩ := Option.map_eq_some_iff.mp hs
  obtain ⟨c, hc, hbc⟩ := seen_request hinv h ho List.mem_cons_self _ rfl rfl rfl hb
  rw [hc]
  by_cases ha : (s.b_flags (.buf n)).b_async = true
  · rw [if_pos ha]
    exact ⟨_, congrArg some (if_pos ha), seen_bwriteReturn h hbc p k⟩
  · rw [if_neg ha]
    exact ⟨_, congrArg some (if_neg ha),
      seen_goto h hbc p (.iowait (.buf n) (.write k))⟩

/-- `iowait` sleeps until the transfer is done. -/
theorem seen_iowait {bp : Ptr} {k : IowaitRet} (hpc : s.pc p = .iowait bp k)
    (hs : s.runPiece p = some s') : ∃ t', t.runPiece swapdev p = some t' ∧ s'.Seen t' := by
  obtain ⟨ho, -, -⟩ := hpc ▸ hinv.procs p
  obtain ⟨n, rfl⟩ := ho.exists_buf hinv.cached
  have ht := h.pc p
  rw [hpc] at ht
  simp only [runPiece, hpc] at hs
  simp only [BufWait.Sys.runPiece, ht, Pc.toWait, Ptr.hdr, h.headers.flags_buf n]
  split at hs
  · next hdone =>
    rw [if_pos hdone]
    cases k with
    | read dev blkno =>
      obtain rfl := Option.some.inj hs
      exact ⟨_, rfl, seen_leaveWith h h.headers p⟩
    | write k =>
      obtain rfl := Option.some.inj hs
      exact ⟨_, rfl, seen_goto h h.headers p (.brelse (.buf n) k)⟩
  · next hdone =>
    obtain rfl := Option.some.inj hs
    rw [if_neg hdone]
    exact ⟨_, rfl, seen_sleep h h.headers p (.buf n) (.iowait (.buf n) k)⟩

/-- A routine ends by `brelse`. -/
theorem seen_brelse {bp : Ptr} {k : BwriteRet} (hpc : s.pc p = .brelse bp k)
    (hs : s.runPiece p = some s') : ∃ t', t.runPiece swapdev p = some t' ∧ s'.Seen t' := by
  obtain ⟨ho, -, -⟩ := hpc ▸ hinv.procs p
  obtain ⟨n, rfl⟩ := ho.exists_buf hinv.cached
  have ht := h.pc p
  rw [hpc] at ht
  simp only [runPiece, hpc] at hs
  obtain rfl := Option.some.inj hs
  have hbusy := hinv.cached.busy_of_holder (b := .buf n) (by simp [ho.holder_eq])
  have hq := ho.quiet (.buf n) (.inr List.mem_cons_self)
  simp only [BufWait.Sys.runPiece, ht, Pc.toWait, Ptr.hdr]
  exact ⟨_, rfl, seen_bwriteReturn h (h.headers.brelse hinv.cached hbusy hq) p k⟩

omit [DecidableEq π] in
/-- What `bflush` finds. -/
theorem seen_bflush_find (dev : Dev) :
    la.find? (fun bp => (s.b_flags bp).b_delwri ∧ (dev = NODEV ∨ dev = s.b_dev bp)) =
      (t.avail.find? fun x => (t.b_flags x).b_delwri ∧ (dev = NODEV ∨ dev = t.b_dev x)).map
        Hdr.ptr := by
  rw [← h.headers.avail_eq hinv.cached, List.find?_map]
  congr 1
  refine List.find?_congr fun x hx => ?_
  have hmem : x.ptr ∈ la := h.headers.avail_eq hinv.cached ▸ List.mem_map_of_mem hx
  obtain ⟨m, hm⟩ := ((hinv.cached.bufs x.ptr).avail.mp hmem).1.exists_buf
  obtain rfl := BufWait.Hdr.ptr_eq_buf.mp hm
  refine decide_eq_decide.mpr ?_
  rw [h.headers.flags_buf m, h.headers.dev m]
  exact Iff.rfl

/-- `bflush` starts the transfer of the first delayed buffer of the device. -/
theorem seen_bflush {dev : Dev} (hpc : s.pc p = .bflush dev) (hs : s.runPiece p = some s') :
    ∃ t', t.runPiece swapdev p = some t' ∧ s'.Seen t' := by
  have ht := h.pc p
  rw [hpc] at ht
  simp only [runPiece, hpc] at hs
  rw [hinv.cached.avail.ringFind_eq hinv.cached.length_avail_le, seen_bflush_find hinv h] at hs
  simp only [BufWait.Sys.runPiece, ht, Pc.toWait]
  cases hfind : t.avail.find? fun x => (t.b_flags x).b_delwri ∧ (dev = NODEV ∨ dev = t.b_dev x) with
  | none =>
    rw [hfind] at hs
    obtain rfl := Option.some.inj hs
    exact ⟨_, rfl, seen_leave h h.headers p⟩
  | some x =>
    rw [hfind] at hs
    obtain rfl := Option.some.inj hs
    have hmem : x.ptr ∈ la :=
      h.headers.avail_eq hinv.cached ▸ List.mem_map_of_mem (List.mem_of_find?_eq_some hfind)
    obtain ⟨n, hn⟩ := ((hinv.cached.bufs x.ptr).avail.mp hmem).1.exists_buf
    obtain rfl := BufWait.Hdr.ptr_eq_buf.mp hn
    have hseen := (h.headers.notavail hinv.cached hmem p).setFlags_buf (n := n)
      fun fl => { fl with b_async := true }
    rw [← Bio.setFlags_notavail, ← Headers.setFlags_notavail] at hseen
    exact ⟨_, rfl, seen_goto h hseen p (.bwrite (.buf n) (.bflush dev))⟩

/-- A piece of code. -/
theorem seen_runPiece (hs : s.runPiece p = some s') :
    ∃ t', t.runPiece swapdev p = some t' ∧ s'.Seen t' := by
  generalize hpc : s.pc p = k
  cases k with
  | user => simp [runPiece, hpc] at hs
  | getblk dev blkno k => exact seen_getblk hinv h hpc hs
  | getblkFound bp dev blkno k => exact seen_getblkFound hinv h hpc hs
  | getblkTake bp k => exact seen_getblkTake hinv h hpc hs
  | getblkAvail dev blkno k => exact seen_getblkAvail h hpc hs
  | getblkOldest dev blkno k => exact seen_getblkOldest hinv h hpc hs
  | getblkReuse bp dev blkno k => exact seen_getblkReuse hinv h hpc hs
  | bread bp dev blkno => exact seen_bread hinv h hpc hs
  | breada dev blkno rablkno => exact seen_breada hinv h hpc hs
  | breadaRead bp dev blkno rablkno => exact seen_breadaRead hinv h hpc hs
  | readahead dev blkno rablkno rbp => exact seen_readahead hinv h hpc hs
  | readaheadRead rabp dev blkno rbp => exact seen_readaheadRead hinv h hpc hs
  | bwrite bp k => exact seen_bwrite hinv h hpc hs
  | iowait bp k => exact seen_iowait hinv h hpc hs
  | brelse bp k => exact seen_brelse hinv h hpc hs
  | bflush dev => exact seen_bflush hinv h hpc hs

end

/-! ## Runs -/

theorem releases_toWait (c : Call) : c.toWait.releases = c.releases.map Ptr.hdr := by
  cases c <;> rfl

/-- The beginning of a routine that is given buffers proper. -/
theorem seen_enter (h : s.Seen t) (p : π) {c : Call}
    (hc : ∀ bp, c.releases = some bp → ∃ n, bp = .buf n) :
    (enter p c s).Seen (BufWait.Sys.enter p c.toWait t) := by
  cases c with
  | getblk dev blkno => exact seen_goto h h.headers p (.getblk dev blkno .user)
  | bread dev blkno => exact seen_goto h h.headers p (.getblk dev blkno (.bread dev blkno))
  | breada dev blkno rablkno => exact seen_goto h h.headers p (.breada dev blkno rablkno)
  | bwrite bp => exact seen_goto h h.headers p (.bwrite bp .user)
  | bawrite bp =>
    obtain ⟨n, rfl⟩ := hc bp rfl
    exact seen_goto h (h.headers.setFlags_buf _) p (.bwrite (.buf n) .user)
  | bdwrite bp =>
    obtain ⟨n, rfl⟩ := hc bp rfl
    exact seen_goto h (h.headers.setFlags_buf _) p (.brelse (.buf n) .user)
  | brelse bp => exact seen_goto h h.headers p (.brelse bp .user)
  | bflush dev => exact seen_goto h h.headers p (.bflush dev)

/-- A buffer that process `p` holds is given up. -/
theorem seen_giveUp (hinv : InvAt False used s.toBio s.pc s.held s.cur ring la q holder)
    (h : s.Seen t) {c : Call} (hs : s.giveUp p c = some s') :
    (∀ bp, c.releases = some bp → ∃ n, bp = .buf n) ∧
      ∃ t', t.giveUp p c.toWait = some t' ∧ s'.Seen t' := by
  unfold giveUp at hs
  unfold BufWait.Sys.giveUp
  rw [releases_toWait]
  cases hc : c.releases with
  | none =>
    rw [hc] at hs
    obtain rfl := Option.some.inj hs
    exact ⟨by simp, t, rfl, h⟩
  | some bp =>
    simp only [hc] at hs
    split at hs
    · next hbp =>
      obtain rfl := Option.some.inj hs
      have hown : holder bp = .proc p := ((hinv.procs p).owns.own bp).mpr (.inl hbp)
      obtain ⟨n, rfl⟩ := (hinv.cached.isBuf_of_holder (b := bp) (by simp [hown])).exists_buf
      -- the same buffer is held in `t`
      rw [h.held p] at hbp
      obtain ⟨x, hx, hptr⟩ := List.mem_map.mp hbp
      obtain rfl := BufWait.Hdr.ptr_eq_buf.mp hptr
      refine ⟨fun bp' hbp' => ⟨n, (Option.some.inj hbp').symm⟩, _, if_pos hx, h.headers, h.pc,
        fun r => ?_, h.cur⟩
      dsimp only
      by_cases hr : r = p
      · rw [hr, update_self, update_self, h.held p]
        exact (List.map_erase BufWait.Hdr.ptr_injective (a := .buf n) (t.held p)).symm
      · rw [update_of_ne hr, update_of_ne hr, h.held r]
    · cases hs

theorem toWait_eq_user {k : Pc} : k.toWait = .user ↔ k = .user := by
  cases k <;> simp [Pc.toWait]

/-- A step of the linked cache is a step of `BufWait`, or it changes only what a buffer contains. -/
theorem seen_step (swapdev : Dev) (hinv : s.Inv False used) (h : s.Seen t) {a : BioAct π β}
    (hs : s.step a = some s') :
    ∃ t', s'.Seen t' ∧ (t' = t ∨ ∃ a', t.step swapdev a' = some t') := by
  obtain ⟨ring, la, q, holder, hinv⟩ := hinv
  -- a piece of the cache is the same piece of the waits, with the data forgotten
  cases a with
  | call p c =>
    simp only [step] at hs
    split at hs
    · next hcur hpc =>
      obtain ⟨s₁, hgive, rfl⟩ := Option.map_eq_some_iff.mp hs
      obtain ⟨hbuf, t₁, hgive', h₁⟩ := seen_giveUp hinv h hgive
      -- the call starts from the same state of the process
      refine ⟨_, seen_enter h₁ p hbuf, .inr ⟨.call p c.toWait, ?_⟩⟩
      have hpc' : t.pc p = .user := by
        rw [h.pc p, hpc]
        rfl
      simp only [BufWait.Sys.step, h.cur, hcur, hpc', hgive', Option.map_some]
    · cases hs
  | run p =>
    simp only [step] at hs
    split at hs
    · next hrun =>
      have hpiece : ∃ t', t.runPiece swapdev p = some t' ∧ s'.Seen t' := seen_runPiece hinv h hs
      obtain ⟨t', ht', h'⟩ := hpiece
      refine ⟨t', h', .inr ⟨.run p, ?_⟩⟩
      -- the process may run in the one model exactly if it may in the other
      rw [h.headers.asleep p, Option.map_eq_none_iff, ← h.cur] at hrun
      exact (if_pos hrun).trans ht'
    · cases hs
  | modify p bp val =>
    simp only [step] at hs
    split at hs
    · split at hs
      · obtain rfl := Option.some.inj hs
        -- the waits do not see the data: no action
        have hb := h.headers
        exact ⟨t, ⟨⟨⟨hb.flags, hb.dev, hb.blkno, hb.active, hb.asleep⟩, hb.rktab, hb.avail,
          hb.queue⟩, h.pc, h.held, h.cur⟩, .inl rfl⟩
      · cases hs
    · cases hs
  | intr =>
    obtain rfl := Option.some.inj hs
    exact ⟨{ t with toHeaders := t.rkintr },
      ⟨h.headers.rkintr hinv.cached hinv.active, h.pc, h.held, h.cur⟩, .inr ⟨.intr, rfl⟩⟩

omit [DecidableEq π] in
/-- Before and after the loop of `binit`. -/
theorem agrees_boot (zero : β) (disk : BitVec 16 → β) :
    (boot zero disk : BioSys π β).toBio.Agrees (Headers.zeroed : Headers π).binit := by
  obtain ⟨s, hs⟩ : ∃ s : Bio π β, s = { (Bio.zeroed zero disk : Bio π β) with
      av_back := update (fun _ => .null) .bfreelist .bfreelist
      av_forw := update (fun _ => .null) .bfreelist .bfreelist
      b_back := update (fun _ => .null) .bfreelist .bfreelist
      b_forw := update (fun _ => .null) .bfreelist .bfreelist } := ⟨_, rfl⟩
  have hzero : s.Agrees { (Headers.zeroed : Headers π) with rktab := [], avail := [] } := by
    rw [hs]
    exact ⟨fun _ _ => rfl, fun _ => rfl, fun _ => rfl, rfl, fun _ => rfl⟩
  have hloop := Bio.Agrees.foldl_binitBuf hzero (List.finRange NBUF)
  have hboot : ∃ f b, (boot zero disk : BioSys π β).toBio =
      { ((List.finRange NBUF).map Ptr.buf).foldl Bio.binitBuf s with
        b_forw := f, b_back := b } := by
    rw [hs]
    exact ⟨_, _, rfl⟩
  obtain ⟨f, b, hboot⟩ := hboot
  rw [hboot]
  unfold Headers.binit
  generalize ((List.finRange NBUF).map Ptr.buf).foldl Bio.binitBuf s = s₁ at hloop ⊢
  generalize ((List.finRange NBUF).map Hdr.buf).foldl Headers.binitBuf _ = t₁ at hloop ⊢
  exact ⟨hloop.flags, hloop.dev, hloop.blkno, hloop.active, hloop.asleep⟩

omit [DecidableEq π] in
/-- `binit` makes the links of all buffers on the available list. -/
theorem seen_boot (zero : β) (disk : BitVec 16 → β) :
    (boot zero disk : BioSys π β).Seen BufWait.Sys.boot := by
  obtain ⟨s, hfreed, hboot⟩ : ∃ s : Bio π β, Freed s allBufs ∧ _ := exists_freed_boot zero disk
  obtain ⟨dev, ht⟩ := BufWait.Sys.foldl_binitBuf ((List.finRange NBUF).map Hdr.buf)
    (b := (Headers.zeroed : Headers π)) fun _ => rfl
  have hlists : (Headers.zeroed : Headers π).binit =
      { (Headers.zeroed : Headers π) with
        b_dev := dev, avail := (List.finRange NBUF).map Hdr.buf } := ht
  have hagrees := agrees_boot (π := π) zero disk
  have hbufs : ((List.finRange NBUF).map Hdr.buf).map Hdr.ptr = allBufs := List.map_map
  unfold BufWait.Sys.boot
  refine ⟨?_, fun _ => rfl, fun _ => rfl, rfl⟩
  rw [hlists, hboot] at hagrees ⊢
  refine ⟨hagrees, LinkRing.nil_iff.mpr (by simp), ?_, ?_⟩
  · dsimp only
    rw [hbufs]
    exact hfreed.avail
  · dsimp only
    rw [hfreed.idle.2]
    exact LinkQueue.nil

/-- Every run of the linked cache, whatever the errors, is seen in a run of `BufWait`. -/
theorem seen_of_reachable (swapdev : Dev) {zero : β} {disk : BitVec 16 → β}
    (h : Reachable step (fun _ _ => True) (boot zero disk) s) :
    ∃ t, Reachable (BufWait.Sys.step swapdev) (fun _ _ => True) BufWait.Sys.boot t ∧ s.Seen t := by
  have hboth : s.Inv False (fun _ _ => True) ∧
      ∃ t, Reachable (BufWait.Sys.step swapdev) (fun _ _ => True) BufWait.Sys.boot t ∧
        s.Seen t := by
    refine h.invariant (P := fun s => s.Inv False (fun _ _ => True) ∧ ∃ t, Reachable
      (BufWait.Sys.step swapdev) (fun _ _ => True) BufWait.Sys.boot t ∧ s.Seen t)
      ⟨inv_boot, _, .refl, seen_boot zero disk⟩ ?_
    rintro s a s' ⟨hinv, t, ht, hseen⟩ - hstep
    refine ⟨hinv.step (by cases a <;> first | trivial | exact fun hf => hf.elim) hstep, ?_⟩
    obtain ⟨t', hseen', rfl | ⟨a', ha'⟩⟩ := seen_step swapdev hinv hseen hstep
    · exact ⟨t', ht, hseen'⟩
    · exact ⟨t', ht.tail trivial ha', hseen'⟩
  exact hboth.2

/-- A process reads block 0 and waits for the disk. -/
def readAsleep : List (BioAct Unit Unit) :=
  [.call () (.bread 0 0)] ++ List.replicate 6 (.run ())

/-- The process sleeps on its buffer in the other model too. -/
theorem seen_of_reachable_readAsleep : ∃ s : BioSys Unit Unit,
    runSteps step readAsleep (boot () fun _ => ()) = some s ∧ s.p_wchan () = some (.buf 0) ∧
    ∃ t, Reachable (BufWait.Sys.step 0) (fun _ _ => True) BufWait.Sys.boot t ∧ s.Seen t := by
  have hrun : (runSteps step readAsleep (boot () fun _ => ())).any
      (fun s : BioSys Unit Unit => s.p_wchan () = some (.buf 0)) = true := by
    decide +kernel
  obtain ⟨s, hs, hasleep⟩ := (Option.any_eq_true _ _).mp hrun
  exact ⟨s, hs, by simpa using hasleep, seen_of_reachable 0 (Reachable.refl.of_runSteps hs)⟩

end BioSys

end UnixV6
