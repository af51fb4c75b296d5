import UnixV6.Dmr.BioLists

/-!
# The invariant of the buffer cache

Every process has its assertion, which depends on the piece of code that it stands before: which
buffers it has in hand, which of them are certainly not in the disk queue, and what it has found
out about the lists. Only the current process can stand before a piece whose assertion says
anything that other processes could spoil.
-/

open Function

namespace UnixV6

variable {π β : Type} {clean : Prop} {used : Dev → Dev → Prop}

/-! ## Assertions -/

/-- The buffers that the caller of `getblk` has in hand meanwhile. -/
def GetblkRet.hand : GetblkRet → List Ptr
  | .readahead _ _ rbp => rbp.toList
  | _ => []

@[inherit_doc GetblkRet.hand]
def BwriteRet.hand : BwriteRet → List Ptr
  | .getblk _ _ k => k.hand
  | _ => []

@[inherit_doc GetblkRet.hand]
def IowaitRet.hand : IowaitRet → List Ptr
  | .read .. => []
  | .write k => k.hand

namespace Pc

/-- The buffers that a process has in hand. -/
def hand : Pc → List Ptr
  | .user | .breada .. | .bflush _ => []
  | .getblk _ _ k | .getblkFound _ _ _ k | .getblkTake _ k => k.hand
  | .getblkAvail _ _ k | .getblkOldest _ _ k => k.hand
  | .getblkReuse bp _ _ k => bp :: k.hand
  | .bread bp _ _ | .breadaRead bp .. => [bp]
  | .iowait bp k => bp :: k.hand
  | .brelse bp k => bp :: k.hand
  | .readahead _ _ _ rbp => rbp.toList
  | .readaheadRead rabp _ _ rbp => rabp :: rbp.toList
  | .bwrite bp k => bp :: k.hand

/-- Those for which no transfer is under way. -/
def quiet : Pc → List Ptr
  | .getblkReuse bp .. | .bread bp _ _ | .breadaRead bp .. | .readaheadRead bp .. => [bp]
  | .bwrite bp _ | .brelse bp _ => [bp]
  | _ => []

/-- Those without `B_ASYNC`. -/
def calm : Pc → List Ptr
  | .bwrite _ k => k.hand
  | pc => pc.hand

/-- What the process knows about the headers. -/
def Knows (clean : Prop) (s : Bio π β) (la : List Ptr) : Pc → Prop
  | .getblkFound bp dev blkno _ => bp.IsBuf ∧ s.b_dev bp = dev ∧ s.b_blkno bp = blkno
  | .getblkTake bp _ => bp ∈ la
  | .getblkAvail dev blkno _ | .getblkReuse _ dev blkno _ => Fresh clean s dev blkno
  | .getblkOldest dev blkno _ => Fresh clean s dev blkno ∧ la ≠ []
  | _ => True

/-- Where a process can stand while another one runs. -/
def Parked : Pc → Prop
  | .user | .getblk .. | .iowait .. => True
  | _ => False

end Pc

/-- The disk accepts requests for the block, which is one of those in use. -/
def Accepts (used : Dev → Dev → Prop) (dev blkno : Dev) : Prop :=
  dev.slt 0 = false → Bio.rkRejects dev blkno = false ∧ used dev blkno

/-- The blocks that a routine has been called for satisfy `P`. -/
def GetblkRet.Blocks (P : Dev → Dev → Prop) : GetblkRet → Prop
  | .user => True
  | .bread dev blkno | .readahead dev blkno _ => P dev blkno
  | .breada dev blkno rablkno => P dev blkno ∧ (rablkno ≠ 0 → P dev rablkno)

@[inherit_doc GetblkRet.Blocks]
def BwriteRet.Blocks (P : Dev → Dev → Prop) : BwriteRet → Prop
  | .getblk dev blkno k => P dev blkno ∧ k.Blocks P
  | _ => True

@[inherit_doc GetblkRet.Blocks]
def IowaitRet.Blocks (P : Dev → Dev → Prop) : IowaitRet → Prop
  | .read .. => True
  | .write k => k.Blocks P

@[inherit_doc GetblkRet.Blocks]
def Pc.Blocks (P : Dev → Dev → Prop) : Pc → Prop
  | .getblk dev blkno k | .getblkFound _ dev blkno k | .getblkAvail dev blkno k
  | .getblkOldest dev blkno k | .getblkReuse _ dev blkno k => P dev blkno ∧ k.Blocks P
  | .getblkTake _ k => k.Blocks P
  | .breada dev blkno rablkno | .breadaRead _ dev blkno rablkno
  | .readahead dev blkno rablkno _ => P dev blkno ∧ (rablkno ≠ 0 → P dev rablkno)
  | .bread _ dev blkno | .readaheadRead _ dev blkno _ => P dev blkno
  | .bwrite _ k | .brelse _ k => k.Blocks P
  | .iowait _ k => k.Blocks P
  | _ => True

@[inherit_doc GetblkRet.Blocks]
def Call.Blocks (P : Dev → Dev → Prop) : Call → Prop
  | .getblk dev blkno | .bread dev blkno => P dev blkno
  | .breada dev blkno rablkno => P dev blkno ∧ (rablkno ≠ 0 → P dev rablkno)
  | _ => True

/-- In a `clean` run the disk has all blocks that are asked for, and they are among those in use. -/
def BioAct.Ok (clean : Prop) (used : Dev → Dev → Prop) : BioAct π β → Prop
  | .call _ c => clean → c.Blocks (Accepts used)
  | _ => True

/-- The blocks of the buffers are in use, and the disk is sent those of a device only. -/
structure Assigned (used : Dev → Dev → Prop) (b_dev b_blkno : Ptr → Dev) (q : List Ptr) :
    Prop where
  accepts : ∀ bp : Ptr, bp.IsBuf → Accepts used (b_dev bp) (b_blkno bp)
  nonneg : ∀ bp ∈ q, (b_dev bp).slt 0 = false

namespace Assigned

variable {b_dev b_blkno : Ptr → Dev} {q : List Ptr} {bp : Ptr}

/-- A request with a device joins the queue. -/
theorem push (h : Assigned used b_dev b_blkno q) (hbp : (b_dev bp).slt 0 = false) :
    Assigned used b_dev b_blkno (q ++ [bp]) := by
  refine ⟨h.accepts, fun x hx => ?_⟩
  rcases List.mem_append.mp hx with hx | hx
  · exact h.nonneg x hx
  · rwa [List.mem_singleton.mp hx]

theorem pop (h : Assigned used b_dev b_blkno (bp :: q)) : Assigned used b_dev b_blkno q :=
  ⟨h.accepts, fun x hx => h.nonneg x (List.mem_cons_of_mem _ hx)⟩

/-- A buffer that is not in the queue gets another block. -/
theorem assign {dev blkno : Dev} (h : Assigned used b_dev b_blkno q) (hbp : bp ∉ q)
    (hblock : Accepts used dev blkno) :
    Assigned used (update b_dev bp dev) (update b_blkno bp blkno) q := by
  refine ⟨fun x hx => ?_, fun x hx => ?_⟩
  · by_cases hxbp : x = bp
    · rw [hxbp, update_self, update_self]
      exact hblock
    · rw [update_of_ne hxbp, update_of_ne hxbp]
      exact h.accepts x hx
  · rw [update_of_ne (ne_of_mem_of_not_mem hx hbp)]
    exact h.nonneg x hx

end Assigned

/-- Process `p` owns the buffers it holds and those in hand, and no others. -/
structure Owns (s : Bio π β) (q : List Ptr) (holder : Ptr → Holder π) (p : π)
    (hand quiet calm held : List Ptr) : Prop where
  own : ∀ bp, holder bp = .proc p ↔ bp ∈ held ∨ bp ∈ hand
  nodup : (hand ++ held).Nodup
  quiet : ∀ bp, bp ∈ held ∨ bp ∈ quiet → bp ∉ q
  calm : ∀ bp, bp ∈ held ∨ bp ∈ calm → (s.b_flags bp).b_async = false

/-- The assertion of process `p`. -/
structure ProcOk (clean : Prop) (used : Dev → Dev → Prop) (s : Bio π β) (la q : List Ptr)
    (holder : Ptr → Holder π) (p : π) (pc : Pc) (held : List Ptr) : Prop where
  owns : Owns s q holder p pc.hand pc.quiet pc.calm held
  knows : pc.Knows clean s la
  blocks : clean → pc.Blocks (Accepts used)

/-- The invariant, for given lists. -/
structure InvAt (clean : Prop) (used : Dev → Dev → Prop) (s : Bio π β) (pc : π → Pc)
    (held : π → List Ptr) (cur : Option π) (ring : Ptr → List Ptr) (la q : List Ptr)
    (holder : Ptr → Holder π) : Prop where
  cached : Cached clean s ring la q holder
  active : s.d_active = 0 ↔ q = []
  io : ∀ bp, holder bp = .io → bp ∈ q
  accepts : clean → Assigned used s.b_dev s.b_blkno q
  procs : ∀ p, ProcOk clean used s la q holder p (pc p) (held p)
  parked : ∀ p, cur ≠ some p → (pc p).Parked

/-- The invariant of the buffer cache. -/
def BioSys.Inv (clean : Prop) (used : Dev → Dev → Prop) (s : BioSys π β) : Prop :=
  ∃ ring la q holder, InvAt clean used s.toBio s.pc s.held s.cur ring la q holder

/-! ## Other processes -/

/-- A change of the cache does not concern process `r`. -/
def Untouched (s : Bio π β) (q : List Ptr) (holder : Ptr → Holder π) (s' : Bio π β) (q' : List Ptr)
    (holder' : Ptr → Holder π) (r : π) : Prop :=
  ∀ bp, (holder' bp = .proc r ↔ holder bp = .proc r) ∧
    (holder bp = .proc r → (bp ∈ q' → bp ∈ q) ∧
      (s'.b_flags bp).b_async = (s.b_flags bp).b_async)

section

variable {s s' : Bio π β} {ring ring' : Ptr → List Ptr} {la la' q q' : List Ptr}
  {holder holder' : Ptr → Holder π} {p r : π} {pc : π → Pc} {held : π → List Ptr} {cur : Option π}

theorem Untouched.refl : Untouched s q holder s q holder r :=
  fun _ => ⟨Iff.rfl, fun _ => ⟨id, rfl⟩⟩

/-- Only `bp` is concerned, which `r` has neither before nor after. -/
theorem Untouched.of_ne {b : Ptr} (hbefore : holder b ≠ .proc r) (hafter : holder' b ≠ .proc r)
    (hother : ∀ x, x ≠ b → holder' x = holder x ∧ (x ∈ q' → x ∈ q) ∧
      (holder x = .proc r → (s'.b_flags x).b_async = (s.b_flags x).b_async)) :
    Untouched s q holder s' q' holder' r := by
  intro x
  by_cases hx : x = b
  · subst hx
    exact ⟨iff_of_false hafter hbefore, fun h => absurd h hbefore⟩
  · obtain ⟨hholder, hqueue, hasync⟩ := hother x hx
    rw [hholder]
    exact ⟨Iff.rfl, fun hr => ⟨hqueue, hasync hr⟩⟩

theorem Pc.quiet_subset_hand (k : Pc) : k.quiet ⊆ k.hand := by
  cases k <;> simp [quiet, hand]

theorem Pc.calm_subset_hand (k : Pc) : k.calm ⊆ k.hand := by
  cases k <;> simp [calm, hand]

theorem Pc.Parked.knows {k : Pc} (h : k.Parked) : k.Knows clean s la := by
  cases k <;> trivial

/-- The assertion of a process that does not run is kept. -/
theorem ProcOk.untouched {k : Pc} {hd : List Ptr} (h : ProcOk clean used s la q holder r k hd)
    (hr : Untouched s q holder s' q' holder' r) (hknows : k.Knows clean s' la') :
    ProcOk clean used s' la' q' holder' r k hd := by
  have hown : ∀ bp, bp ∈ hd ∨ bp ∈ k.hand → holder bp = .proc r := fun bp hbp =>
    (h.owns.own bp).mpr hbp
  refine ⟨⟨fun bp => ?_, h.owns.nodup, fun bp hbp hq => ?_, fun bp hbp => ?_⟩, hknows, h.blocks⟩
  · rw [(hr bp).1]
    exact h.owns.own bp
  · have hbp' := hown bp (hbp.imp_right fun hk => k.quiet_subset_hand hk)
    exact h.owns.quiet bp hbp (((hr bp).2 hbp').1 hq)
  · have hbp' := hown bp (hbp.imp_right fun hk => k.calm_subset_hand hk)
    rw [((hr bp).2 hbp').2]
    exact h.owns.calm bp hbp

/-- What a piece of code run by process `p` does to the headers. -/
structure Piece (clean : Prop) (used : Dev → Dev → Prop) (p : π) (s : Bio π β) (q : List Ptr)
    (holder : Ptr → Holder π) (s' : Bio π β) (ring' : Ptr → List Ptr) (la' q' : List Ptr)
    (holder' : Ptr → Holder π) : Prop where
  cached : Cached clean s' ring' la' q' holder'
  active : s'.d_active = 0 ↔ q' = []
  io : ∀ bp, holder' bp = .io → bp ∈ q'
  accepts : clean → Assigned used s'.b_dev s'.b_blkno q'
  other : ∀ r, r ≠ p → Untouched s q holder s' q' holder' r

/-- A piece that leaves every buffer where it is. -/
theorem InvAt.piece (h : InvAt clean used s pc held cur ring la q holder)
    (hcached : Cached clean s' ring la q holder) (hactive : s'.d_active = s.d_active)
    (hdev : s'.b_dev = s.b_dev) (hblk : s'.b_blkno = s.b_blkno)
    (hasync : ∀ r, r ≠ p → ∀ bp, holder bp = .proc r →
      (s'.b_flags bp).b_async = (s.b_flags bp).b_async) :
    Piece clean used p s q holder s' ring la q holder := by
  refine ⟨hcached, ?_, h.io, ?_, fun r hr bp => ⟨Iff.rfl, fun hbp => ⟨id, hasync r hr bp hbp⟩⟩⟩
  · rw [hactive]
    exact h.active
  · rw [hdev, hblk]
    exact h.accepts

/-- A piece that does not touch the headers at all. -/
theorem InvAt.nothing (h : InvAt clean used s pc held cur ring la q holder) :
    Piece clean used p s q holder s ring la q holder :=
  h.piece h.cached rfl rfl rfl fun _ _ _ _ => rfl

/-- A piece of code run by process `p`: what is to be shown is the assertion that `p` comes to. -/
theorem InvAt.run [DecidableEq π] (h : InvAt clean used s pc held cur ring la q holder)
    (hcur : cur = none ∨ cur = some p)
    (hpiece : Piece clean used p s q holder s' ring' la' q' holder')
    {k : Pc} {hd : List Ptr} (hp : ProcOk clean used s' la' q' holder' p k hd) {pc' : π → Pc}
    {held' : π → List Ptr} {cur' : Option π} (hpc' : pc' = update pc p k)
    (hheld' : held' = update held p hd) (hcur' : cur' = some p ∨ cur' = none ∧ k.Parked) :
    InvAt clean used s' pc' held' cur' ring' la' q' holder' := by
  subst hpc' hheld'
  -- the code is not interrupted by another process, so all others are parked
  have hparked : ∀ r, r ≠ p → (pc r).Parked := by
    intro r hr
    apply h.parked
    rcases hcur with rfl | rfl
    · simp
    · simpa using hr.symm
  -- what the others know is about buffers that the piece leaves alone
  refine ⟨hpiece.cached, hpiece.active, hpiece.io, hpiece.accepts, fun r => ?_, fun r hr => ?_⟩
  · by_cases hrp : r = p
    · subst hrp
      rwa [update_self, update_self]
    · rw [update_of_ne hrp, update_of_ne hrp]
      exact (h.procs r).untouched (hpiece.other r hrp) (hparked r hrp).knows
  · by_cases hrp : r = p
    · subst hrp
      rw [update_self]
      rcases hcur' with rfl | ⟨-, hk⟩
      · exact absurd rfl hr
      · exact hk
    · rw [update_of_ne hrp]
      exact hparked r hrp

end

/-! ## Requests and interrupts -/

/-- The devices that have a list have a number. -/
theorem Bio.devtab_nonneg {dev : Dev} {dp : Ptr} (h : Bio.devtab dev = some dp) :
    dev.slt 0 = false := by
  unfold Bio.devtab at h
  split at h
  · cases h
  · rename_i hnot
    have hmajor := (not_or.mp hnot).1
    rw [Bool.not_eq_true] at hmajor
    rw [← hmajor]
    show dev.slt 0#16 = (dev.sshiftRight 8).slt 0#16
    rw [BitVec.slt_zero_eq_msb, BitVec.slt_zero_eq_msb, BitVec.msb_sshiftRight]

section

variable {s s' : Bio π β} {ring : Ptr → List Ptr} {la q : List Ptr} {holder : Ptr → Holder π}
  {p : π} {bp : Ptr}

/-- What a request does: an asynchronous one takes the buffer from the process. -/
structure Requested (clean : Prop) (used : Dev → Dev → Prop) (s s' : Bio π β) (bp : Ptr)
    (ring : Ptr → List Ptr) (q : List Ptr) (holder : Ptr → Holder π) (la' q' : List Ptr)
    (holder' : Ptr → Holder π) : Prop where
  cached : Cached clean s' ring la' q' holder'
  active : s'.d_active = 0 ↔ q' = []
  io : ∀ x, holder' x = .io → x ∈ q'
  accepts : clean → Assigned used s'.b_dev s'.b_blkno q'
  other : ∀ x, x ≠ bp → holder' x = holder x ∧ (x ∈ q' → x ∈ q)
  flags : ∀ x : Ptr, x.IsBuf → x ≠ bp → s'.b_flags x = s.b_flags x
  async : (s.b_flags bp).b_async = true → ∀ r, holder' bp ≠ .proc r
  sync : (s.b_flags bp).b_async = false → holder' bp = holder bp ∧
    (s'.b_flags bp).b_async = false

/-- A request that was made is a piece of code. -/
theorem Requested.piece {la' q' : List Ptr} {holder' : Ptr → Holder π}
    (h : Requested clean used s s' bp ring q holder la' q' holder')
    (hc : Cached clean s ring la q holder)
    (hbp : holder bp = .proc p) : Piece clean used p s q holder s' ring la' q' holder' := by
  refine ⟨h.cached, h.active, h.io, h.accepts, fun r hr => ?_⟩
  have hbefore : holder bp ≠ .proc r := by
    rw [hbp]
    simpa using hr.symm
  refine Untouched.of_ne hbefore ?_ fun x hx => ⟨(h.other x hx).1, (h.other x hx).2, fun hxr => ?_⟩
  · cases ha : (s.b_flags bp).b_async
    · rwa [(h.sync ha).1]
    · exact h.async ha r
  · rw [h.flags x (hc.isBuf_of_holder (by simp [hxr])) hx]

/-- A buffer in hand is handed to the driver of its device. -/
theorem Cached.strategy (h : Cached clean s ring la q holder) (hactive : s.d_active = 0 ↔ q = [])
    (hio : ∀ x, holder x = .io → x ∈ q)
    (haccepts : clean → Assigned used s.b_dev s.b_blkno q)
    (hbp : holder bp = .proc p) (hq : bp ∉ q) (hdone : (s.b_flags bp).b_done = false)
    (hs : s.strategy bp = some s') :
    ∃ la' q' holder', Requested clean used s s' bp ring q holder la' q' holder' := by
  obtain ⟨dp, hdp, rfl⟩ := Option.map_eq_some_iff.mp hs
  have hne : holder bp ≠ .avail := by simp [hbp]
  have hbuf := h.isBuf_of_holder hne
  have hflags : ∀ x : Ptr, x.IsBuf → x ≠ bp → (s.rkstrategy bp).b_flags x = s.b_flags x :=
    fun x hx hxbp => Bio.rkstrategy_flags_of_ne hxbp hx.ne_bfreelist s
  cases hok : Bio.rkRejects (s.b_dev bp) (s.b_blkno bp) with
  | true =>
    -- the request ends at once, with an error
    have hclean : ¬ clean := by
      intro hclean
      rw [((haccepts hclean).accepts bp hbuf (Bio.devtab_nonneg hdp)).1] at hok
      cases hok
    have hend := h.rkstrategy_rejected hok hclean hbp hq
    have hactive' : (s.rkstrategy bp).d_active = 0 ↔ q = [] := by
      rw [Bio.rkstrategy_d_active_rejected hok]
      exact hactive
    cases ha : (s.b_flags bp).b_async with
    | true =>
      rw [if_pos ha] at hend
      refine ⟨_, _, _, hend, hactive', fun x hx => ?_, fun hc => absurd hc hclean,
        fun x hx => ⟨update_of_ne hx .., id⟩, hflags, fun _ r => by simp, by simp [ha]⟩
      by_cases hxbp : x = bp
      · rw [hxbp, update_self] at hx
        cases hx
      · rw [update_of_ne hxbp] at hx
        exact hio x hx
    | false =>
      rw [if_neg (by simp [ha])] at hend
      refine ⟨_, _, _, hend, hactive', hio, fun hc => absurd hc hclean, fun x _ => ⟨rfl, id⟩,
        hflags, by simp [ha], fun _ => ⟨rfl, Bio.rkstrategy_async_rejected hok ha⟩⟩
  | false =>
    have hend := h.rkstrategy_queued hok hbp hq hdone
    obtain ⟨hfl, hdev, hblk⟩ := Bio.rkstrategy_queued hok
    have hactive' : (s.rkstrategy bp).d_active = 0 ↔ q ++ [bp] = [] := by
      have hnot := Bio.rkstrategy_d_active hbuf.ne_null hok fun hzero =>
        h.queue.first_eq_null_iff.mpr (hactive.mp hzero)
      simp [hnot]
    refine ⟨_, _, _, hend, hactive', fun x hx => ?_, ?_, fun x hx => ⟨?_, ?_⟩, hflags, ?_, ?_⟩
    · by_cases hxbp : x = bp
      · simp [hxbp]
      · apply List.mem_append_left
        apply hio
        split at hx
        · rwa [update_of_ne hxbp] at hx
        · exact hx
    · rw [hdev, hblk]
      exact fun hc => (haccepts hc).push (Bio.devtab_nonneg hdp)
    · split
      · rw [update_of_ne hx]
      · rfl
    · simp [hx]
    · intro ha r
      rw [if_pos ha, update_self]
      simp
    · intro ha
      rw [hfl]
      simp [ha]

/-- The interrupt of the disk concerns no process. -/
theorem InvAt.rkintr {pc : π → Pc} {held : π → List Ptr} {cur : Option π}
    (h : InvAt clean used s pc held cur ring la q holder) :
    ∃ la' q' holder', InvAt clean used s.rkintr pc held cur ring la' q' holder' := by
  cases q with
  | nil =>
    refine ⟨la, [], holder, ?_⟩
    rw [Bio.rkintr, if_pos (h.active.mpr rfl)]
    exact h
  | cons bp q =>
    have hactive : s.d_active ≠ 0 := by simp [h.active]
    have hfirst : s.d_actf = bp := h.cached.queue.first_cons
    obtain ⟨hbuf, -, hdone, hasync⟩ := (h.cached.bufs bp).queue List.mem_cons_self
    have hnodup := (List.nodup_cons.mp (List.nodup_cons.mp h.cached.queue.nodup).2).1
    have hdev := Bio.rkintr_b_dev (hfirst ▸ h.cached.error_eq_false hbuf hdone)
    have hactive' : s.rkintr.d_active = 0 ↔ q = [] := by
      rw [Bio.rkintr_d_active hactive, hfirst, ← h.cached.queue.pop.first_eq_null_iff]
      split <;> simp [*]
    -- the others keep their buffers, wherever the one at the head of the queue goes
    have hflags : ∀ x : Ptr, x.IsBuf → (s.b_flags x).b_async = false →
        (s.rkintr.b_flags x).b_async = false :=
      fun x hx ha => Bio.rkintr_async hx.ne_bfreelist ha
    have hknows : ∀ r la', la ⊆ la' → (pc r).Knows clean s.rkintr la' := by
      intro r la' hsub
      have hold := (h.procs r).knows
      generalize pc r = k at hold
      cases k with
      | getblkFound x dev blkno k =>
        rw [Pc.Knows, hdev, Bio.rkintr_b_blkno]
        exact hold
      | getblkTake x k => exact hsub hold
      | getblkAvail dev blkno k | getblkReuse x dev blkno k =>
        rw [Pc.Knows, Fresh, hdev, Bio.rkintr_b_blkno]
        exact hold
      | getblkOldest dev blkno k =>
        rw [Pc.Knows, Fresh, hdev, Bio.rkintr_b_blkno]
        exact ⟨hold.1, fun hnil => hold.2 (List.subset_nil.mp (hnil ▸ hsub))⟩
      | _ => trivial
    have hprocs : ∀ r la' (holder' : Ptr → Holder π), la ⊆ la' →
        (∀ x, holder' x = .proc r ↔ holder x = .proc r) →
        ProcOk clean used s.rkintr la' q holder' r (pc r) (held r) := by
      intro r la' holder' hsub hholder
      have hold := h.procs r
      refine ⟨⟨fun x => ?_, hold.owns.nodup, fun x hx hxq => ?_, fun x hx => ?_⟩,
        hknows r la' hsub, hold.blocks⟩
      · rw [hholder]
        exact hold.owns.own x
      · exact hold.owns.quiet x hx (List.mem_cons_of_mem _ hxq)
      · have hown := (hold.owns.own x).mpr (hx.imp_right fun hk => (pc r).calm_subset_hand hk)
        exact hflags x (h.cached.isBuf_of_holder (by simp [hown])) (hold.owns.calm x hx)
    have haccepts : clean → Assigned used s.rkintr.b_dev s.rkintr.b_blkno q := by
      rw [hdev, Bio.rkintr_b_blkno]
      exact fun hc => (h.accepts hc).pop
    have hend := h.cached.rkintr_cons hactive
    by_cases ha : (s.b_flags bp).b_async = true
    · rw [if_pos ha] at hend
      have hio := hasync.mp ha
      refine ⟨_, _, _, hend, hactive', fun x hx => ?_, haccepts,
        fun r => hprocs r _ _ (by simp) fun x => ?_, h.parked⟩
      · have hxbp : x ≠ bp := by
          rintro rfl
          rw [update_self] at hx
          cases hx
        rw [update_of_ne hxbp] at hx
        exact (List.mem_cons.mp (h.io x hx)).resolve_left hxbp
      · by_cases hxbp : x = bp
        · rw [hxbp, update_self, hio]
          simp
        · rw [update_of_ne hxbp]
    · rw [if_neg ha] at hend
      refine ⟨_, _, _, hend, hactive', fun x hx => ?_, haccepts,
        fun r => hprocs r _ _ (fun _ => id) fun x => Iff.rfl, h.parked⟩
      have hxbp : x ≠ bp := by
        rintro rfl
        exact ha (hasync.mpr hx)
      exact (List.mem_cons.mp (h.io x hx)).resolve_left hxbp

/-! ## Pieces -/

variable {pc : π → Pc} {held : π → List Ptr} {cur : Option π} {hand quiet calm hd : List Ptr}

/-- A process owns its buffers as long as nobody makes them asynchronous. -/
theorem Owns.flags (h : Owns s q holder p hand quiet calm hd)
    (hasync : ∀ x, x ∈ hd ∨ x ∈ calm → (s'.b_flags x).b_async = (s.b_flags x).b_async) :
    Owns s' q holder p hand quiet calm hd := by
  refine ⟨h.own, h.nodup, h.quiet, fun x hx => ?_⟩
  rw [hasync x hx]
  exact h.calm x hx

/-- The buffer in hand is neither held nor in hand twice. -/
theorem Owns.notMem (h : Owns s q holder p (bp :: hand) quiet calm hd) : bp ∉ hd ∧ bp ∉ hand := by
  have hnot : bp ∉ hand ++ hd := (List.nodup_cons.mp h.nodup).1
  rw [List.mem_append] at hnot
  exact ⟨fun hmem => hnot (Or.inr hmem), fun hmem => hnot (Or.inl hmem)⟩

/-- The buffer in hand is given to the user. -/
theorem Owns.keep (h : Owns s q holder p [bp] quiet [bp] hd) (hq : bp ∉ q) :
    Owns s q holder p [] [] [] (bp :: hd) := by
  refine ⟨fun x => ?_, h.nodup, fun x hx => ?_, fun x hx => ?_⟩
  · rw [h.own x]
    simp [or_comm]
  · rcases hx with hx | hx
    · rcases List.mem_cons.mp hx with rfl | hx
      · exact hq
      · exact h.quiet x (Or.inl hx)
    · cases hx
  · rcases hx with hx | hx
    · rcases List.mem_cons.mp hx with rfl | hx
      · exact h.calm x (Or.inr List.mem_cons_self)
      · exact h.calm x (Or.inl hx)
    · cases hx

/-- The buffer in hand belongs to the process. -/
theorem Owns.holder_eq (h : Owns s q holder p (bp :: hand) quiet calm hd) : holder bp = .proc p :=
  (h.own bp).mpr (Or.inr List.mem_cons_self)

/-- A buffer in hand is one of the buffers proper. -/
theorem Owns.exists_buf (ho : Owns s q holder p (bp :: hand) quiet calm hd)
    (h : Cached clean s ring la q holder) : ∃ n, bp = .buf n :=
  (h.isBuf_of_holder (by simp [ho.holder_eq])).exists_buf

/-- `notavail`: process `p` gets a buffer that was available. -/
theorem InvAt.take (h : InvAt clean used s pc held cur ring la q holder) (hbp : bp ∈ la)
    (ho : Owns s q holder p hand quiet calm hd) :
    Piece clean used p s q holder (s.notavail bp) ring (la.erase bp) q (update holder bp (.proc p)) ∧
      Owns (s.notavail bp) q (update holder bp (.proc p)) p (bp :: hand) (bp :: quiet)
        (bp :: calm) hd := by
  obtain ⟨hbuf, hfree⟩ := (h.cached.bufs bp).avail.mp hbp
  have havail : holder bp = .avail := (h.cached.bufs bp).holder.mpr fun _ => hfree
  have hflags : ∀ x, x ≠ bp → (s.notavail bp).b_flags x = s.b_flags x := by
    intro x hx
    rw [Bio.notavail, Bio.setFlags_of_ne hx]
  have hself : ((s.notavail bp).b_flags bp).b_async = (s.b_flags bp).b_async := by
    simp [Bio.notavail, Bio.setFlags]
  -- it was in nobody's hands before
  have hnot : ¬ (bp ∈ hd ∨ bp ∈ hand) := by
    rw [← ho.own, havail]
    simp
  refine ⟨⟨h.cached.notavail hbp p, h.active, fun x hx => ?_, h.accepts, fun r hr => ?_⟩,
    fun x => ?_, ?_, fun x hx => ?_, fun x hx => ?_⟩
  · have hxbp : x ≠ bp := by
      rintro rfl
      simp at hx
    rw [update_of_ne hxbp] at hx
    exact h.io x hx
  · refine Untouched.of_ne (b := bp) ?_ ?_ fun x hx => ⟨update_of_ne hx .., id, fun _ => ?_⟩
    · simp [havail]
    · simpa using hr.symm
    · rw [hflags x hx]
  · by_cases hx : x = bp
    · simp [hx]
    · rw [update_of_ne hx, ho.own x]
      simp [hx]
  · rw [List.cons_append, List.nodup_cons, List.mem_append]
    exact ⟨fun hmem => hnot hmem.symm, ho.nodup⟩
  · by_cases hxbp : x = bp
    · rw [hxbp]
      exact h.cached.notMem_queue_of_avail hbp
    · apply ho.quiet x
      simpa [hxbp] using hx
  · by_cases hxbp : x = bp
    · rw [hxbp, hself]
      exact (h.cached.bufs bp).calm hbuf hfree
    · rw [hflags x hxbp]
      apply ho.calm x
      simpa [hxbp] using hx

/-- `brelse`: process `p` releases a buffer. -/
theorem InvAt.release (h : InvAt clean used s pc held cur ring la q holder)
    (ho : Owns s q holder p (bp :: hand) [bp] (bp :: hand) hd) :
    Piece clean used p s q holder (s.brelse bp) ring (la ++ [bp]) q (update holder bp .avail) ∧
      Owns (s.brelse bp) q (update holder bp .avail) p hand [] hand hd := by
  have hholder := ho.holder_eq
  have hne : holder bp ≠ .avail := by simp [hholder]
  have hbuf := h.cached.isBuf_of_holder hne
  have hq : bp ∉ q := ho.quiet bp (Or.inr List.mem_cons_self)
  have hcached := h.cached.brelse hbuf (h.cached.busy_of_holder hne) hq
  have hflags : ∀ x : Ptr, x.IsBuf → x ≠ bp → (s.brelse bp).b_flags x = s.b_flags x :=
    fun x hx hxbp => Bio.brelse_flags_of_ne hxbp hx.ne_bfreelist
  -- the buffers that the process keeps
  have hown : ∀ x, x ∈ hd ∨ x ∈ hand → x ≠ bp ∧ x.IsBuf := by
    intro x hx
    refine ⟨?_, h.cached.isBuf_of_holder ?_⟩
    · rintro rfl
      exact hx.elim ho.notMem.1 ho.notMem.2
    · rw [(ho.own x).mpr (hx.imp_right (List.mem_cons_of_mem _))]
      simp
  -- the piece first, then what the process still owns
  refine ⟨⟨hcached, ?_, fun x hx => ?_, fun hclean => ?_, fun r hr => ?_⟩,
    fun x => ?_, (List.nodup_cons.mp ho.nodup).2, fun x hx => ?_, fun x hx => ?_⟩
  · rw [Bio.brelse_d_active]
    exact h.active
  · have hxbp : x ≠ bp := by
      rintro rfl
      simp at hx
    rw [update_of_ne hxbp] at hx
    exact h.io x hx
  · have hdev : (s.brelse bp).b_dev = s.b_dev := by
      funext x
      rcases Bio.brelse_b_dev bp s x with hdev | ⟨herror, -, -⟩
      · exact hdev
      · exact absurd hclean ((h.cached.bufs bp).error hbuf herror).2
    rw [Bio.brelse_b_blkno, hdev]
    exact h.accepts hclean
  · refine Untouched.of_ne (b := bp) ?_ (by simp) fun x hx => ⟨update_of_ne hx .., id, fun hxr => ?_⟩
    · simpa [hholder] using hr.symm
    · rw [hflags x (h.cached.isBuf_of_holder (by simp [hxr])) hx]
  · by_cases hx : x = bp
    · subst hx
      simp [ho.notMem]
    · rw [update_of_ne hx, ho.own x]
      simp [hx]
  · apply ho.quiet x
    exact hx.imp_right fun hmem => absurd hmem List.not_mem_nil
  · obtain ⟨hxbp, hxbuf⟩ := hown x hx
    rw [hflags x hxbuf hxbp]
    exact ho.calm x (hx.imp_right (List.mem_cons_of_mem _))

/-- Flags of a buffer in hand are set. -/
theorem Piece.setFlags {s₀ : Bio π β} {q₀ : List Ptr} {holder₀ : Ptr → Holder π}
    (h : Piece clean used p s₀ q₀ holder₀ s ring la q holder) (hbp : holder bp = .proc p)
    (hq : bp ∉ q) (f : BFlags → BFlags) (hbusy : (f (s.b_flags bp)).b_busy = (s.b_flags bp).b_busy)
    (herror : (f (s.b_flags bp)).b_error = true → (f (s.b_flags bp)).b_done = true ∧ ¬ clean) :
    Piece clean used p s₀ q₀ holder₀ (s.setFlags bp f) ring la q holder := by
  have hbusy' := h.cached.busy_of_holder (b := bp) (by simp [hbp])
  have hcached := h.cached.setFlags f hbusy herror (by simp [hbusy']) fun hmem => absurd hmem hq
  refine ⟨hcached, h.active, h.io, h.accepts, fun r hr x => ?_⟩
  obtain ⟨hholder, hkeep⟩ := h.other r hr x
  refine ⟨hholder, fun hx => ⟨(hkeep hx).1, ?_⟩⟩
  rw [Bio.setFlags_of_ne, (hkeep hx).2]
  rintro rfl
  rw [hholder.mpr hx] at hbp
  exact hr (by simpa using hbp)

/-- A request for a buffer in hand, whose flags `f` sets just before. -/
theorem InvAt.request (h : InvAt clean used s pc held cur ring la q holder)
    (ho : Owns s q holder p (bp :: hand) quiet calm hd) (hquiet : bp ∈ quiet) (hcalm : hand ⊆ calm)
    (f : BFlags → BFlags) (hbusy : (f (s.b_flags bp)).b_busy = (s.b_flags bp).b_busy)
    (herror : (f (s.b_flags bp)).b_error = false) (hdone : (f (s.b_flags bp)).b_done = false)
    (hs : (s.setFlags bp f).strategy bp = some s') :
    ∃ la' q' holder', Piece clean used p s q holder s' ring la' q' holder' ∧
      ((f (s.b_flags bp)).b_async = true → Owns s' q' holder' p hand [] hand hd) ∧
      ((f (s.b_flags bp)).b_async = false →
        Owns s' q' holder' p (bp :: hand) [] (bp :: hand) hd) := by
  have hbp := ho.holder_eq
  have hq := ho.quiet bp (Or.inr hquiet)
  -- the flags are set before the request is made
  have hset := h.nothing.setFlags hbp hq f hbusy (by simp [herror])
  obtain ⟨la', q', holder', hreq⟩ := hset.cached.strategy hset.active hset.io hset.accepts hbp hq
    (by rwa [Bio.setFlags_self]) hs
  have hpiece := hreq.piece hset.cached hbp
  have hself : (((s.setFlags bp f).b_flags bp)).b_async = (f (s.b_flags bp)).b_async := by
    rw [Bio.setFlags_self]
  -- the other buffers of the process are neither in the queue nor asynchronous
  have hown : ∀ x, x ∈ hd ∨ x ∈ hand → x ≠ bp ∧ (s'.b_flags x).b_async = false := by
    intro x hx
    have hxbp : x ≠ bp := by
      rintro rfl
      exact hx.elim ho.notMem.1 ho.notMem.2
    have hxbuf : x.IsBuf := by
      apply h.cached.isBuf_of_holder
      rw [(ho.own x).mpr (hx.imp_right (List.mem_cons_of_mem _))]
      simp
    refine ⟨hxbp, ?_⟩
    rw [hreq.flags x hxbuf hxbp, Bio.setFlags_of_ne hxbp]
    exact ho.calm x (hx.imp_right fun hmem => hcalm hmem)
  have hquiet' : ∀ x, x ∈ hd ∨ x ∈ ([] : List Ptr) → x ∉ q' := by
    rintro x (hx | hx)
    · intro hmem
      exact ho.quiet x (Or.inl hx) ((hreq.other x (hown x (Or.inl hx)).1).2 hmem)
    · cases hx
  -- an asynchronous request gives the buffer away, a synchronous one keeps it in hand
  refine ⟨la', q', holder', ⟨hpiece.cached, hpiece.active, hpiece.io, hpiece.accepts,
    fun r hr x => ?_⟩, fun ha => ⟨fun x => ?_, (List.nodup_cons.mp ho.nodup).2, hquiet',
    fun x hx => (hown x hx).2⟩, fun ha => ⟨fun x => ?_, ho.nodup, hquiet', fun x hx => ?_⟩⟩
  · refine ⟨(hpiece.other r hr x).1, fun hx => ⟨((hpiece.other r hr x).2 hx).1, ?_⟩⟩
    rw [((hpiece.other r hr x).2 hx).2, Bio.setFlags_of_ne]
    rintro rfl
    rw [hbp] at hx
    exact hr (by simpa using hx.symm)
  · by_cases hx : x = bp
    · subst hx
      exact iff_of_false (hreq.async (hself.trans ha) p) (by simp [ho.notMem])
    · rw [(hreq.other x hx).1, ho.own x]
      simp [hx]
  · have hholder : holder' x = holder x := by
      by_cases hx : x = bp
      · rw [hx, (hreq.sync (hself.trans ha)).1]
      · exact (hreq.other x hx).1
    rw [hholder]
    exact ho.own x
  · by_cases hxbp : x = bp
    · rw [hxbp]
      exact (hreq.sync (hself.trans ha)).2
    · apply (hown x _).2
      simpa [hxbp] using hx

end

/-! ## One step -/

namespace BioSys

variable [DecidableEq π] {s s' : BioSys π β} {b : Bio π β} {p : π} {bp : Ptr}
  {ring ring' : Ptr → List Ptr} {la la' q q' : List Ptr} {holder holder' : Ptr → Holder π}

/-- Process `p` goes on to `k`. -/
theorem inv_goto (h : InvAt clean used s.toBio s.pc s.held s.cur ring la q holder)
    (hcur : s.cur = none ∨ s.cur = some p)
    (hpiece : Piece clean used p s.toBio q holder b ring' la' q' holder') {k : Pc}
    (hp : ProcOk clean used b la' q' holder' p k (s.held p)) :
    (goto p k { s with toBio := b }).Inv clean used :=
  ⟨ring', la', q', holder', h.run hcur hpiece hp rfl (update_eq_self p s.held).symm (Or.inl rfl)⟩

/-- The process goes to sleep. -/
theorem inv_sleep (h : InvAt clean used s.toBio s.pc s.held s.cur ring la q holder)
    (hcur : s.cur = none ∨ s.cur = some p)
    (hpiece : Piece clean used p s.toBio q holder b ring' la' q' holder') {k : Pc}
    (hp : ProcOk clean used b la' q' holder' p k (s.held p)) (hk : k.Parked) (chan : Ptr) :
    (sleep p chan k { s with toBio := b }).Inv clean used := by
  have hpiece' : Piece clean used p s.toBio q holder
      { b with p_wchan := update b.p_wchan p (some chan) } ring' la' q' holder' :=
    ⟨hpiece.cached.wchan _, hpiece.active, hpiece.io, hpiece.accepts, hpiece.other⟩
  have howns := hp.owns
  exact ⟨ring', la', q', holder', h.run hcur hpiece'
    ⟨⟨howns.own, howns.nodup, howns.quiet, howns.calm⟩, hk.knows, hp.blocks⟩ rfl
    (update_eq_self p s.held).symm (Or.inr ⟨rfl, hk⟩)⟩

/-- The process leaves the routines. -/
theorem inv_leave (h : InvAt clean used s.toBio s.pc s.held s.cur ring la q holder)
    (hcur : s.cur = none ∨ s.cur = some p)
    (hpiece : Piece clean used p s.toBio q holder b ring' la' q' holder')
    (ho : Owns b q' holder' p [] [] [] (s.held p)) : (leave p { s with toBio := b }).Inv clean used :=
  ⟨ring', la', q', holder', h.run hcur hpiece (k := .user) ⟨ho, trivial, fun _ => trivial⟩ rfl
    (update_eq_self p s.held).symm (Or.inr ⟨rfl, trivial⟩)⟩

/-- The process leaves with a buffer. -/
theorem inv_leaveWith (h : InvAt clean used s.toBio s.pc s.held s.cur ring la q holder)
    (hcur : s.cur = none ∨ s.cur = some p)
    (hpiece : Piece clean used p s.toBio q holder b ring' la' q' holder') {quiet : List Ptr}
    (ho : Owns b q' holder' p [bp] quiet [bp] (s.held p)) (hq : bp ∉ q') :
    (leaveWith p bp { s with toBio := b }).Inv clean used :=
  ⟨ring', la', q', holder', h.run hcur hpiece (k := .user)
    ⟨ho.keep hq, trivial, fun _ => trivial⟩ rfl rfl (Or.inr ⟨rfl, trivial⟩)⟩

/-- `getblk` returns its buffer to the routine behind it. -/
theorem inv_getblkReturn (h : InvAt clean used s.toBio s.pc s.held s.cur ring la q holder)
    (hcur : s.cur = none ∨ s.cur = some p)
    (hpiece : Piece clean used p s.toBio q holder b ring' la' q' holder') {k : GetblkRet}
    (ho : Owns b q' holder' p (bp :: k.hand) [bp] (bp :: k.hand) (s.held p))
    (hblocks : clean → k.Blocks (Accepts used)) :
    (getblkReturn p bp k { s with toBio := b }).Inv clean used := by
  have hq := ho.quiet bp (Or.inr List.mem_cons_self)
  cases k with
  | user => exact inv_leaveWith h hcur hpiece ho hq
  | bread dev blkno => exact inv_goto h hcur hpiece ⟨ho, trivial, hblocks⟩
  | breada dev blkno rablkno => exact inv_goto h hcur hpiece ⟨ho, trivial, hblocks⟩
  | readahead dev blkno rbp => exact inv_goto h hcur hpiece ⟨ho, trivial, hblocks⟩

/-- `bwrite` returns to the routine behind it. -/
theorem inv_bwriteReturn (h : InvAt clean used s.toBio s.pc s.held s.cur ring la q holder)
    (hcur : s.cur = none ∨ s.cur = some p)
    (hpiece : Piece clean used p s.toBio q holder b ring' la' q' holder') {k : BwriteRet}
    (ho : Owns b q' holder' p k.hand [] k.hand (s.held p))
    (hblocks : clean → k.Blocks (Accepts used)) :
    (bwriteReturn p k { s with toBio := b }).Inv clean used := by
  cases k with
  | user => exact inv_leave h hcur hpiece ho
  | getblk dev blkno k => exact inv_goto h hcur hpiece ⟨ho, trivial, hblocks⟩
  | bflush dev => exact inv_goto h hcur hpiece ⟨ho, trivial, fun _ => trivial⟩

/-- `breada` comes to its end. -/
theorem inv_breadaReturn (h : InvAt clean used s.toBio s.pc s.held s.cur ring la q holder)
    (hcur : s.cur = none ∨ s.cur = some p)
    (hpiece : Piece clean used p s.toBio q holder b ring' la' q' holder') {dev blkno : Dev}
    {rbp : Option Ptr} (ho : Owns b q' holder' p rbp.toList [] rbp.toList (s.held p))
    (hblocks : clean → Accepts used dev blkno) :
    (breadaReturn p dev blkno rbp { s with toBio := b }).Inv clean used := by
  cases rbp with
  | none => exact inv_goto h hcur hpiece ⟨ho, trivial, fun hc => ⟨hblocks hc, hblocks hc⟩⟩
  | some bp => exact inv_goto h hcur hpiece ⟨ho, trivial, fun _ => trivial⟩

section

variable (h : InvAt clean used s.toBio s.pc s.held s.cur ring la q holder)
  (hcur : s.cur = none ∨ s.cur = some p)

include h hcur

/-- `getblk` looks for the block. -/
theorem inv_getblk {dev blkno : Dev} {k : GetblkRet} (hpc : s.pc p = .getblk dev blkno k)
    (hs : s.runPiece p = some s') : s'.Inv clean used := by
  obtain ⟨ho, -, hblocks⟩ := hpc ▸ h.procs p
  simp only [runPiece, hpc] at hs
  split at hs
  · rename_i hneg
    obtain rfl := Option.some.inj hs
    refine inv_goto h hcur h.nothing ⟨ho, fun hassoc => ?_, hblocks⟩
    rw [hassoc.1] at hneg
    cases hneg
  · obtain ⟨found, hfound, rfl⟩ := Option.map_eq_some_iff.mp hs
    cases found with
    | none => exact inv_goto h hcur h.nothing ⟨ho, h.cached.fresh_of_incore hfound, hblocks⟩
    | some bp => exact inv_goto h hcur h.nothing ⟨ho, h.cached.isBuf_of_incore hfound, hblocks⟩

/-- `getblk` has found the block, and sleeps if its buffer is busy. -/
theorem inv_getblkFound {dev blkno : Dev} {k : GetblkRet}
    (hpc : s.pc p = .getblkFound bp dev blkno k) (hs : s.runPiece p = some s') :
    s'.Inv clean used := by
  obtain ⟨ho, ⟨hbuf, -, -⟩, hblocks⟩ := hpc ▸ h.procs p
  have hbufs := h.cached.bufs bp
  simp only [runPiece, hpc] at hs
  split at hs
  · -- busy: ask to be woken up
    rename_i hbusy
    obtain rfl := Option.some.inj hs
    have hasync : ∀ x, ((s.toBio.setFlags bp fun fl => { fl with b_wanted := true }).b_flags
        x).b_async = (s.b_flags x).b_async := by
      intro x
      by_cases hx : x = bp
      · rw [hx, Bio.setFlags_self]
      · rw [Bio.setFlags_of_ne hx]
    have hcached := h.cached.setFlags (fun fl => { fl with b_wanted := true }) rfl
      (hbufs.error hbuf) (hbufs.calm hbuf) fun hmem => ⟨(hbufs.queue hmem).2.2.1, rfl⟩
    refine inv_sleep h hcur (k := .getblk dev blkno k)
      (h.piece hcached rfl rfl rfl fun _ _ x _ => hasync x)
      ⟨ho.flags fun x _ => hasync x, trivial, hblocks⟩ trivial bp
  · rename_i hbusy
    obtain rfl := Option.some.inj hs
    exact inv_goto h hcur h.nothing
      ⟨ho, hbufs.avail.mpr ⟨hbuf, by simpa using hbusy⟩, fun hc => (hblocks hc).2⟩

/-- `getblk` takes the buffer that it has found. -/
theorem inv_getblkTake {k : GetblkRet} (hpc : s.pc p = .getblkTake bp k)
    (hs : s.runPiece p = some s') : s'.Inv clean used := by
  obtain ⟨ho, hmem, hblocks⟩ := hpc ▸ h.procs p
  simp only [runPiece, hpc] at hs
  obtain rfl := Option.some.inj hs
  obtain ⟨hpiece, ho'⟩ := h.take hmem ho
  exact inv_getblkReturn h hcur hpiece ho' hblocks

/-- `getblk` has not found the block, and sleeps if no buffer is available. -/
theorem inv_getblkAvail {dev blkno : Dev} {k : GetblkRet}
    (hpc : s.pc p = .getblkAvail dev blkno k) (hs : s.runPiece p = some s') : s'.Inv clean used := by
  obtain ⟨ho, hfresh, hblocks⟩ := hpc ▸ h.procs p
  simp only [runPiece, hpc] at hs
  split at hs
  · obtain rfl := Option.some.inj hs
    have hcached := h.cached.setFlags_head (b := .bfreelist) id
      fun fl => { fl with b_wanted := true }
    have hasync : ∀ x : Ptr, ((s.toBio.setFlags .bfreelist
        fun fl => { fl with b_wanted := true }).b_flags x).b_async = (s.b_flags x).b_async := by
      intro x
      by_cases hx : x = .bfreelist
      · rw [hx, Bio.setFlags_self]
      · rw [Bio.setFlags_of_ne hx]
    refine inv_sleep h hcur (k := .getblk dev blkno k)
      (h.piece hcached rfl rfl rfl fun _ _ x _ => hasync x)
      ⟨ho.flags fun x _ => hasync x, trivial, hblocks⟩ trivial .bfreelist
  · rename_i hne
    obtain rfl := Option.some.inj hs
    exact inv_goto h hcur h.nothing
      ⟨ho, ⟨hfresh, mt h.cached.avail.next_head_eq_iff.mpr hne⟩, hblocks⟩

/-- `getblk` takes the oldest available buffer. -/
theorem inv_getblkOldest {dev blkno : Dev} {k : GetblkRet}
    (hpc : s.pc p = .getblkOldest dev blkno k) (hs : s.runPiece p = some s') : s'.Inv clean used := by
  obtain ⟨ho, ⟨hfresh, hne⟩, hblocks⟩ := hpc ▸ h.procs p
  simp only [runPiece, hpc] at hs
  obtain rfl := Option.some.inj hs
  have hmem : s.av_forw .bfreelist ∈ la := by
    obtain ⟨x, l, rfl⟩ := List.exists_cons_of_ne_nil hne
    rw [h.cached.avail.next_head]
    exact List.mem_cons_self
  obtain ⟨hpiece, ho'⟩ := h.take hmem ho
  exact inv_goto h hcur hpiece ⟨ho', hfresh, hblocks⟩

/-- `getblk` gives a buffer to the block, or goes on to write it out. -/
theorem inv_getblkReuse {dev blkno : Dev} {k : GetblkRet}
    (hpc : s.pc p = .getblkReuse bp dev blkno k) (hs : s.runPiece p = some s') :
    s'.Inv clean used := by
  obtain ⟨ho, hfresh, hblocks⟩ := hpc ▸ h.procs p
  have hbp := ho.holder_eq
  have hq : bp ∉ q := ho.quiet bp (Or.inr List.mem_cons_self)
  have hbuf := h.cached.isBuf_of_holder (b := bp) (by simp [hbp])
  simp only [runPiece, hpc] at hs
  split at hs
  · -- a delayed write comes first
    obtain rfl := Option.some.inj hs
    -- only the asynchronous flag is set, on a buffer that `p` owns
    have hpiece := h.nothing.setFlags hbp hq (fun fl => { fl with b_async := true }) rfl
      ((h.cached.bufs bp).error hbuf)
    refine inv_goto h hcur hpiece ⟨⟨ho.own, ho.nodup, ho.quiet, fun x hx => ?_⟩, trivial, hblocks⟩
    -- the buffers `p` holds besides are others than `bp`
    have hx' : x ≠ bp := by
      rintro rfl
      exact hx.elim ho.notMem.1 ho.notMem.2
    rw [Bio.setFlags_of_ne hx']
    exact ho.calm x (hx.imp_right (List.mem_cons_of_mem _))
  -- the buffer is clean: it gets its new device and block
  · obtain ⟨dp, hdp, rfl⟩ := Option.map_eq_some_iff.mp hs
    have hcached := h.cached.assign hbp hq hdp hfresh
    have hflags : ∀ x, x ≠ bp →
        ((s.toBio.assign bp dp dev blkno).b_flags x) = s.b_flags x := fun x hx => update_of_ne hx ..
    have hself : ((s.toBio.assign bp dp dev blkno).b_flags bp).b_async = false := by
      simp [Bio.assign, Bio.setFlags]
    refine inv_getblkReturn h hcur
      ⟨hcached, h.active, h.io, fun hc => (h.accepts hc).assign hq (hblocks hc).1, fun r hr x => ?_⟩
      ⟨ho.own, ho.nodup, ho.quiet, fun x hx => ?_⟩ fun hc => (hblocks hc).2
    -- nobody else's buffers are touched by the assignment
    · refine ⟨Iff.rfl, fun hx => ⟨id, ?_⟩⟩
      rw [hflags]
      rintro rfl
      rw [hbp] at hx
      exact hr (by simpa using hx.symm)
    -- what `p` holds stays calm: `bp` has lost its asynchronous flag
    · by_cases hxbp : x = bp
      · rw [hxbp, hself]
      · rw [hflags x hxbp]
        exact ho.calm x hx

/-- `bread` starts the transfer, unless the block is in core. -/
theorem inv_bread {dev blkno : Dev} (hpc : s.pc p = .bread bp dev blkno)
    (hs : s.runPiece p = some s') : s'.Inv clean used := by
  obtain ⟨ho, -, hblocks⟩ := hpc ▸ h.procs p
  have hq : bp ∉ q := ho.quiet bp (Or.inr List.mem_cons_self)
  have hbuf := h.cached.isBuf_of_holder (b := bp) (by simp [ho.holder_eq])
  simp only [runPiece, hpc] at hs
  split at hs
  · obtain rfl := Option.some.inj hs
    exact inv_leaveWith h hcur h.nothing ho hq
  · rename_i hdone
    rw [Bool.not_eq_true] at hdone
    obtain ⟨b, hb, rfl⟩ := Option.map_eq_some_iff.mp hs
    obtain ⟨la', q', holder', hpiece, -, hsync⟩ := h.request ho List.mem_cons_self
      (List.nil_subset _) _ rfl (h.cached.error_eq_false hbuf hdone) hdone hb
    exact inv_goto h hcur hpiece
      ⟨hsync (ho.calm bp (Or.inr List.mem_cons_self)), trivial, fun _ => trivial⟩

/-- `breada` looks for the first block. -/
theorem inv_breada {dev blkno rablkno : Dev} (hpc : s.pc p = .breada dev blkno rablkno)
    (hs : s.runPiece p = some s') : s'.Inv clean used := by
  obtain ⟨ho, -, hblocks⟩ := hpc ▸ h.procs p
  simp only [runPiece, hpc] at hs
  obtain ⟨found, -, rfl⟩ := Option.map_eq_some_iff.mp hs
  cases found with
  | none =>
    exact inv_goto h hcur h.nothing ⟨ho, trivial, fun hc => ⟨(hblocks hc).1, hblocks hc⟩⟩
  | some x => exact inv_goto h hcur h.nothing ⟨ho, trivial, hblocks⟩

/-- `breada` starts the transfer of the first block. -/
theorem inv_breadaRead {dev blkno rablkno : Dev} (hpc : s.pc p = .breadaRead bp dev blkno rablkno)
    (hs : s.runPiece p = some s') : s'.Inv clean used := by
  obtain ⟨ho, -, hblocks⟩ := hpc ▸ h.procs p
  have hbuf := h.cached.isBuf_of_holder (b := bp) (by simp [ho.holder_eq])
  simp only [runPiece, hpc] at hs
  split at hs
  · obtain rfl := Option.some.inj hs
    have ho' : Owns s.toBio q holder p [bp] [] [bp] (s.held p) :=
      ⟨ho.own, ho.nodup, fun x hx => ho.quiet x (hx.imp_right fun hx => by cases hx), ho.calm⟩
    exact inv_goto h hcur h.nothing ⟨ho', trivial, hblocks⟩
  · rename_i hdone
    rw [Bool.not_eq_true] at hdone
    obtain ⟨b, hb, rfl⟩ := Option.map_eq_some_iff.mp hs
    obtain ⟨la', q', holder', hpiece, -, hsync⟩ := h.request ho List.mem_cons_self
      (List.nil_subset _) _ rfl (h.cached.error_eq_false hbuf hdone) hdone hb
    exact inv_goto h hcur hpiece
      ⟨hsync (ho.calm bp (Or.inr List.mem_cons_self)), trivial, hblocks⟩

/-- `breada` looks for the block to be read ahead. -/
theorem inv_readahead {dev blkno rablkno : Dev} {rbp : Option Ptr}
    (hpc : s.pc p = .readahead dev blkno rablkno rbp) (hs : s.runPiece p = some s') :
    s'.Inv clean used := by
  obtain ⟨ho, -, hblocks⟩ := hpc ▸ h.procs p
  have hreturn : (s.breadaReturn p dev blkno rbp).Inv clean used :=
    inv_breadaReturn h hcur h.nothing ho fun hc => (hblocks hc).1
  simp only [runPiece, hpc] at hs
  split at hs
  · obtain rfl := Option.some.inj hs
    exact hreturn
  · rename_i hne
    obtain ⟨found, -, rfl⟩ := Option.map_eq_some_iff.mp hs
    cases found with
    | none =>
      exact inv_goto h hcur h.nothing
        ⟨ho, trivial, fun hc => ⟨(hblocks hc).2 hne, (hblocks hc).1⟩⟩
    | some x => exact hreturn

/-- `breada` starts the transfer of the block to be read ahead, or releases its buffer. -/
theorem inv_readaheadRead {dev blkno : Dev} {rbp : Option Ptr}
    (hpc : s.pc p = .readaheadRead bp dev blkno rbp) (hs : s.runPiece p = some s') :
    s'.Inv clean used := by
  obtain ⟨ho, -, hblocks⟩ := hpc ▸ h.procs p
  have hbuf := h.cached.isBuf_of_holder (b := bp) (by simp [ho.holder_eq])
  simp only [runPiece, hpc] at hs
  split at hs
  · obtain rfl := Option.some.inj hs
    obtain ⟨hpiece, ho'⟩ := h.release ho
    exact inv_breadaReturn h hcur hpiece ho' hblocks
  · rename_i hdone
    rw [Bool.not_eq_true] at hdone
    obtain ⟨b, hb, rfl⟩ := Option.map_eq_some_iff.mp hs
    obtain ⟨la', q', holder', hpiece, hasync, -⟩ := h.request ho List.mem_cons_self
      (List.subset_cons_self _ _) _ rfl (h.cached.error_eq_false hbuf hdone) hdone hb
    exact inv_breadaReturn h hcur hpiece (hasync rfl) hblocks

/-- `bwrite` starts the transfer. -/
theorem inv_bwrite {k : BwriteRet} (hpc : s.pc p = .bwrite bp k) (hs : s.runPiece p = some s') :
    s'.Inv clean used := by
  obtain ⟨ho, -, hblocks⟩ := hpc ▸ h.procs p
  simp only [runPiece, hpc] at hs
  obtain ⟨b, hb, rfl⟩ := Option.map_eq_some_iff.mp hs
  obtain ⟨la', q', holder', hpiece, hasync, hsync⟩ := h.request ho List.mem_cons_self
    (List.Subset.refl _) _ rfl rfl rfl hb
  by_cases ha : (s.b_flags bp).b_async = true
  · rw [if_pos ha]
    exact inv_bwriteReturn h hcur hpiece (hasync ha) hblocks
  · rw [if_neg ha]
    rw [Bool.not_eq_true] at ha
    exact inv_goto h hcur hpiece ⟨hsync ha, trivial, hblocks⟩

/-- `iowait` sleeps until the transfer is done. -/
theorem inv_iowait {k : IowaitRet} (hpc : s.pc p = .iowait bp k) (hs : s.runPiece p = some s') :
    s'.Inv clean used := by
  obtain ⟨ho, -, hblocks⟩ := hpc ▸ h.procs p
  simp only [runPiece, hpc] at hs
  split at hs
  · -- what is done is not queued
    rename_i hdone
    have hq : bp ∉ q := by
      intro hmem
      rw [((h.cached.bufs bp).queue hmem).2.2.1] at hdone
      cases hdone
    cases k with
    | read dev blkno =>
      obtain rfl := Option.some.inj hs
      exact inv_leaveWith h hcur h.nothing ho hq
    | write k =>
      obtain rfl := Option.some.inj hs
      have ho' : Owns s.toBio q holder p (bp :: k.hand) [bp] (bp :: k.hand) (s.held p) := by
        refine ⟨ho.own, ho.nodup, fun x hx => ?_, ho.calm⟩
        rcases hx with hx | hx
        · exact ho.quiet x (Or.inl hx)
        · rwa [List.mem_singleton.mp hx]
      exact inv_goto h hcur h.nothing ⟨ho', trivial, hblocks⟩
  · obtain rfl := Option.some.inj hs
    exact inv_sleep h hcur h.nothing ⟨ho, trivial, hblocks⟩ trivial bp

/-- A routine ends by `brelse`. -/
theorem inv_brelse {k : BwriteRet} (hpc : s.pc p = .brelse bp k) (hs : s.runPiece p = some s') :
    s'.Inv clean used := by
  obtain ⟨ho, -, hblocks⟩ := hpc ▸ h.procs p
  simp only [runPiece, hpc] at hs
  obtain rfl := Option.some.inj hs
  obtain ⟨hpiece, ho'⟩ := h.release ho
  exact inv_bwriteReturn h hcur hpiece ho' hblocks

/-- `bflush` takes the first delayed buffer of the device. -/
theorem inv_bflush {dev : Dev} (hpc : s.pc p = .bflush dev) (hs : s.runPiece p = some s') :
    s'.Inv clean used := by
  obtain ⟨ho, -, -⟩ := hpc ▸ h.procs p
  simp only [runPiece, hpc] at hs
  obtain ⟨found, hfound, rfl⟩ := Option.map_eq_some_iff.mp hs
  cases found with
  | none => exact inv_leave h hcur h.nothing ho
  | some bp =>
    have hmem : bp ∈ la := by
      rw [h.cached.avail.ringFind_eq h.cached.length_avail_le, Option.some.injEq] at hfound
      exact List.mem_of_find?_eq_some hfound
    obtain ⟨hbuf, hfree⟩ := (h.cached.bufs bp).avail.mp hmem
    obtain ⟨hpiece, ho'⟩ := h.take hmem ho
    have hself : update holder bp (.proc p) bp = .proc p := update_self ..
    have hset := hpiece.setFlags hself (h.cached.notMem_queue_of_avail hmem)
      (fun fl => { fl with b_async := true }) rfl ((hpiece.cached.bufs bp).error hbuf)
    dsimp only
    rw [Bio.setFlags_notavail]
    refine inv_goto h hcur hset ⟨⟨ho'.own, ho'.nodup, ho'.quiet, fun x hx => ?_⟩, trivial,
      fun _ => trivial⟩
    have hx' : x ∈ s.held p := hx.resolve_right List.not_mem_nil
    rw [Bio.setFlags_of_ne (ne_of_mem_of_not_mem hx' ho'.notMem.1)]
    exact ho'.calm x (Or.inl hx')

/-- A piece of code keeps the invariant. -/
theorem inv_runPiece (hs : s.runPiece p = some s') : s'.Inv clean used := by
  generalize hpc : s.pc p = k
  cases k with
  | user => simp [runPiece, hpc] at hs
  | getblk dev blkno k => exact inv_getblk h hcur hpc hs
  | getblkFound bp dev blkno k => exact inv_getblkFound h hcur hpc hs
  | getblkTake bp k => exact inv_getblkTake h hcur hpc hs
  | getblkAvail dev blkno k => exact inv_getblkAvail h hcur hpc hs
  | getblkOldest dev blkno k => exact inv_getblkOldest h hcur hpc hs
  | getblkReuse bp dev blkno k => exact inv_getblkReuse h hcur hpc hs
  | bread bp dev blkno => exact inv_bread h hcur hpc hs
  | breada dev blkno rablkno => exact inv_breada h hcur hpc hs
  | breadaRead bp dev blkno rablkno => exact inv_breadaRead h hcur hpc hs
  | readahead dev blkno rablkno rbp => exact inv_readahead h hcur hpc hs
  | readaheadRead rabp dev blkno rbp => exact inv_readaheadRead h hcur hpc hs
  | bwrite bp k => exact inv_bwrite h hcur hpc hs
  | iowait bp k => exact inv_iowait h hcur hpc hs
  | brelse bp k => exact inv_brelse h hcur hpc hs
  | bflush dev => exact inv_bflush h hcur hpc hs

end

/-- A call of one of the routines by process `p`, which releases `bp`. -/
theorem inv_releasing (h : InvAt clean used s.toBio s.pc s.held s.cur ring la q holder)
    (hcur : s.cur = none) (hpc : s.pc p = .user) (hbp : bp ∈ s.held p) {c : Call}
    (hc : c.releases = some bp) :
    (enter p c { s with held := update s.held p ((s.held p).erase bp) }).Inv clean used := by
  have ho : Owns s.toBio q holder p [] [] [] (s.held p) := (hpc ▸ h.procs p).owns
  have hown : holder bp = .proc p := (ho.own bp).mpr (Or.inl hbp)
  have hq : bp ∉ q := ho.quiet bp (Or.inl hbp)
  have hbuf := h.cached.isBuf_of_holder (b := bp) (by simp [hown])
  have herror := (h.cached.bufs bp).error hbuf
  have hnodup : (s.held p).Nodup := ho.nodup
  -- the buffer is in hand now
  have hmem : ∀ x, x ∈ (s.held p).erase bp ∨ x ∈ [bp] ↔ x ∈ s.held p := by
    intro x
    rw [hnodup.mem_erase_iff, List.mem_singleton]
    by_cases hx : x = bp
    · simp [hx, hbp]
    · simp [hx]
  have hhand : Owns s.toBio q holder p [bp] [bp] [bp] ((s.held p).erase bp) := by
    refine ⟨fun x => ?_, ?_, fun x hx => ho.quiet x (Or.inl ((hmem x).mp hx)),
      fun x hx => ho.calm x (Or.inl ((hmem x).mp hx))⟩
    · rw [ho.own x, hmem x]
      simp
    · exact List.nodup_cons.mpr ⟨hnodup.not_mem_erase, hnodup.erase bp⟩
  have hloose : Owns s.toBio q holder p [bp] [bp] [] ((s.held p).erase bp) :=
    ⟨hhand.own, hhand.nodup, hhand.quiet,
      fun x hx => hhand.calm x (hx.imp_right fun hx => by cases hx)⟩
  have hset : ∀ f : BFlags → BFlags, ∀ x ∈ (s.held p).erase bp,
      (s.toBio.setFlags bp f).b_flags x = s.b_flags x :=
    fun f x hx => Bio.setFlags_of_ne (ne_of_mem_of_not_mem hx hnodup.not_mem_erase) ..
  cases c with
  | bwrite x =>
    obtain rfl : x = bp := Option.some.inj hc
    exact ⟨_, _, _, _, h.run (Or.inl hcur) h.nothing (k := .bwrite x .user)
      ⟨hloose, trivial, fun _ => trivial⟩ rfl rfl (Or.inl rfl)⟩
  | bawrite x =>
    obtain rfl : x = bp := Option.some.inj hc
    refine ⟨_, _, _, _, h.run (Or.inl hcur)
      (h.nothing.setFlags hown hq (fun fl => { fl with b_async := true }) rfl herror)
      (k := .bwrite x .user) ⟨hloose.flags fun y hy => ?_, trivial, fun _ => trivial⟩ rfl rfl
      (Or.inl rfl)⟩
    rw [hset _ y (hy.resolve_right List.not_mem_nil)]
  | bdwrite x =>
    obtain rfl : x = bp := Option.some.inj hc
    refine ⟨_, _, _, _, h.run (Or.inl hcur)
      (h.nothing.setFlags hown hq (fun fl => { fl with b_delwri := true, b_done := true }) rfl
        fun he => ⟨rfl, (herror he).2⟩)
      (k := .brelse x .user) ⟨hhand.flags fun y hy => ?_, trivial, fun _ => trivial⟩ rfl rfl
      (Or.inl rfl)⟩
    rcases hy with hy | hy
    · rw [hset _ y hy]
    · rw [List.mem_singleton.mp hy, Bio.setFlags_self]
  | brelse x =>
    obtain rfl : x = bp := Option.some.inj hc
    exact ⟨_, _, _, _, h.run (Or.inl hcur) h.nothing (k := .brelse x .user)
      ⟨hhand, trivial, fun _ => trivial⟩ rfl rfl (Or.inl rfl)⟩
  | _ => cases hc

/-- A call that releases nothing. -/
theorem inv_entering (h : InvAt clean used s.toBio s.pc s.held s.cur ring la q holder)
    (hcur : s.cur = none) (hpc : s.pc p = .user) {c : Call} (hc : c.releases = none)
    (hok : clean → c.Blocks (Accepts used)) : (enter p c s).Inv clean used := by
  have ho : Owns s.toBio q holder p [] [] [] (s.held p) := (hpc ▸ h.procs p).owns
  cases c with
  | getblk dev blkno =>
    exact inv_goto h (Or.inl hcur) h.nothing ⟨ho, trivial, fun hcl => ⟨hok hcl, trivial⟩⟩
  | bread dev blkno =>
    exact inv_goto h (Or.inl hcur) h.nothing ⟨ho, trivial, fun hcl => ⟨hok hcl, hok hcl⟩⟩
  | breada dev blkno rablkno => exact inv_goto h (Or.inl hcur) h.nothing ⟨ho, trivial, hok⟩
  | bflush dev => exact inv_goto h (Or.inl hcur) h.nothing ⟨ho, trivial, fun _ => trivial⟩
  | _ => cases hc

/-- Every step keeps the invariant. -/
theorem Inv.step (h : s.Inv clean used) {a : BioAct π β} (ha : a.Ok clean used)
    (hs : s.step a = some s') : s'.Inv clean used := by
  obtain ⟨ring, la, q, holder, h⟩ := h
  -- one case for each action; the process must be current to make a call
  cases a with
  | call p c =>
    simp only [BioSys.step] at hs
    split at hs
    · rename_i hcur hpc
      obtain ⟨s₁, hgive, rfl⟩ := Option.map_eq_some_iff.mp hs
      unfold giveUp at hgive
      split at hgive
      · rename_i hc
        obtain rfl := Option.some.inj hgive
        exact inv_entering h hcur hpc hc ha
      · rename_i bp hc
        split at hgive
        -- a released buffer is one that the process holds
        · rename_i hbp
          obtain rfl := Option.some.inj hgive
          exact inv_releasing h hcur hpc hbp hc
        · cases hgive
    · cases hs
  | run p =>
    simp only [BioSys.step] at hs
    split at hs
    · rename_i hrun
      exact inv_runPiece h (hrun.elim Or.inr fun hp => Or.inl hp.1) hs
    · cases hs
  | modify p bp val =>
    simp only [BioSys.step] at hs
    split at hs
    -- user data changes neither flags nor lists
    · split at hs
      · obtain rfl := Option.some.inj hs
        refine ⟨ring, la, q, holder, h.cached.blocks s.d_active _ s.disk, h.active, h.io, h.accepts,
          fun r => ?_, h.parked⟩
        obtain ⟨⟨h1, h2, h3, h4⟩, hknows, hblocks⟩ := h.procs r
        exact ⟨⟨h1, h2, h3, h4⟩, by generalize s.pc r = k at hknows; cases k <;> exact hknows,
          hblocks⟩
      · cases hs
    · cases hs
  | intr =>
    obtain rfl := Option.some.inj hs
    obtain ⟨la', q', holder', h'⟩ := h.rkintr
    exact ⟨ring, la', q', holder', h'⟩

end BioSys

end UnixV6
