import UnixV6.Dmr.BufWaitHeaders

/-!
# Pieces of code between two sleeps

The assertion of every process, which depends on the piece of code that it stands before, and what
the operations on headers do to the assertions: to that of the process that runs, and to those of
the others.
-/

open Function

namespace UnixV6.BufWait

variable {π : Type}

/-! ## Assertions of the processes -/

/-- The buffers that the caller of `getblk` has in hand meanwhile. -/
def GetblkRet.hand : GetblkRet → List Hdr
  | .readahead _ _ rbp => rbp.toList
  | _ => []

@[inherit_doc GetblkRet.hand]
def BwriteRet.hand : BwriteRet → List Hdr
  | .getblk _ _ k => k.hand
  | _ => []

@[inherit_doc GetblkRet.hand]
def IowaitRet.hand : IowaitRet → List Hdr
  | .read => []
  | .write k => k.hand

namespace Pc

/-- The headers that a process has in hand. -/
def hand : Pc → List Hdr
  | .user | .breada .. | .bflush _ | .swap .. => []
  | .getblk _ _ k | .getblkFound _ _ _ k | .getblkTake _ k => k.hand
  | .getblkAvail _ _ k | .getblkOldest _ _ k => k.hand
  | .getblkReuse bp _ _ k => bp :: k.hand
  | .bread bp | .breadaRead bp .. => [bp]
  | .iowait bp k => bp :: k.hand
  | .brelse bp k | .bwrite bp k => bp :: k.hand
  | .readahead _ _ _ rbp => rbp.toList
  | .readaheadRead rabp _ _ rbp => rabp :: rbp.toList
  | .swapWait | .swapClear => [.swbuf]

/-- Those for which no transfer is under way; for the others one is, or is done. -/
def quiet : Pc → List Hdr
  | .getblkReuse bp .. | .bread bp | .breadaRead bp .. | .readaheadRead bp .. => [bp]
  | .bwrite bp _ | .brelse bp _ => [bp]
  | .swapClear => [.swbuf]
  | _ => []

/-- Those without `B_ASYNC`. -/
def calm : Pc → List Hdr
  | .bwrite _ k => k.hand
  | pc => pc.hand

/-- The process is the user of `swbuf`. -/
def Swaps : Pc → Prop
  | .swapWait | .swapClear => True
  | _ => False

/-- What the process knows about the headers. -/
def Knows (s : Headers π) (holder : Hdr → Holder π) : Pc → Prop
  | .getblkFound bp .. => bp.IsBuf
  | .getblkTake bp _ => bp.IsBuf ∧ holder bp = .avail
  | .getblkReuse bp .. => ∀ r, s.p_wchan r ≠ some bp
  | .swapClear => ∀ r, s.p_wchan r ≠ some .swbuf
  | _ => True

/-- Where a process can stand while another one runs. -/
def Parked : Pc → Prop
  | .user | .getblk .. | .iowait .. | .swap .. | .swapWait => True
  | _ => False

theorem quiet_subset_hand (k : Pc) : k.quiet ⊆ k.hand := by
  cases k <;> simp [quiet, hand]

theorem calm_subset_hand (k : Pc) : k.calm ⊆ k.hand := by
  cases k <;> simp [calm, hand]

/-- A process that sleeps relies on nothing. -/
theorem Parked.knows {k : Pc} (h : k.Parked) {s : Headers π} {holder : Hdr → Holder π} :
    k.Knows s holder := by
  cases k <;> trivial

end Pc

/-- The transfer is under way or done. -/
def Headers.Started (s : Headers π) (x : Hdr) : Prop := (s.b_flags x).b_done = true ∨ x ∈ s.queue

/-- Process `p` owns the buffers it holds and those in hand, and no others. -/
structure Owns (s : Headers π) (holder : Hdr → Holder π) (p : π)
    (hand quiet calm held : List Hdr) : Prop where
  own : ∀ x, holder x = .proc p ↔ x ∈ held ∨ x ∈ hand
  nodup : (hand ++ held).Nodup
  started : ∀ x ∈ hand, x ∈ quiet ∨ s.Started x
  quiet : ∀ x, x ∈ held ∨ x ∈ quiet → x ∉ s.queue
  calm : ∀ x, x ∈ held ∨ x ∈ calm → (s.b_flags x).b_async = false

/-- The assertion of process `p`. -/
structure ProcOk (s : Headers π) (holder : Hdr → Holder π) (p : π) (pc : Pc) (held : List Hdr) :
    Prop where
  owns : Owns s holder p pc.hand pc.quiet pc.calm held
  swaps : holder .swbuf = .proc p → pc.Swaps
  knows : pc.Knows s holder

/-- The invariant, for given holders. -/
structure InvAt (s : Sys π) (holder : Hdr → Holder π) : Prop where
  sound : Sound s.toHeaders holder
  procs : ∀ p, ProcOk s.toHeaders holder p (s.pc p) (s.held p)
  parked : ∀ p, s.cur ≠ some p → (s.pc p).Parked
  asleep : ∀ p chan, s.p_wchan p = some chan →
    s.cur ≠ some p ∧ (s.pc p).Awaits s.toHeaders chan

def Sys.Inv (s : Sys π) : Prop := ∃ holder, InvAt s holder

/-! ## Other processes -/

/-- A change of the headers does not concern process `r`. -/
def Untouched (s : Headers π) (holder : Hdr → Holder π) (s' : Headers π)
    (holder' : Hdr → Holder π) (r : π) : Prop :=
  ∀ x, (holder' x = .proc r ↔ holder x = .proc r) ∧
    (holder x = .proc r → (x ∈ s'.queue → x ∈ s.queue) ∧
      ((s.b_flags x).b_async = false → (s'.b_flags x).b_async = false) ∧
      (s.Started x → s'.Started x))

section

variable {s s' s'' : Headers π} {holder holder' holder'' : Hdr → Holder π} {p r : π} {bp : Hdr}
  {hand quiet calm hd : List Hdr}

theorem Untouched.refl : Untouched s holder s holder r := fun _ => ⟨Iff.rfl, fun _ => ⟨id, id, id⟩⟩

/-- Two changes in a row. -/
theorem Untouched.trans (h : Untouched s holder s' holder' r)
    (h' : Untouched s' holder' s'' holder'' r) : Untouched s holder s'' holder'' r := by
  intro x
  refine ⟨(h' x).1.trans (h x).1, fun hx => ?_⟩
  obtain ⟨hq, ha, hd⟩ := (h x).2 hx
  obtain ⟨hq', ha', hd'⟩ := (h' x).2 ((h x).1.mpr hx)
  exact ⟨fun hmem => hq (hq' hmem), fun hx => ha' (ha hx), fun hx => hd' (hd hx)⟩

/-- A change that concerns the header `bp` only. -/
def Elsewhere (bp : Hdr) (s : Headers π) (holder : Hdr → Holder π) (s' : Headers π)
    (holder' : Hdr → Holder π) : Prop :=
  ∀ x, x ≠ bp → holder' x = holder x ∧ (x ∈ s'.queue ↔ x ∈ s.queue) ∧
    (s'.b_flags x).b_async = (s.b_flags x).b_async ∧
      (s'.b_flags x).b_done = (s.b_flags x).b_done

/-- The other buffers have been started as before. -/
theorem Elsewhere.started {x : Hdr} (h : Elsewhere bp s holder s' holder') (hx : x ≠ bp) :
    s'.Started x ↔ s.Started x := by
  obtain ⟨-, hqueue, -, hdone⟩ := h x hx
  rw [Headers.Started, Headers.Started, hdone, hqueue]

/-- Only `bp` is concerned, which `r` has neither before nor after. -/
theorem Elsewhere.untouched (h : Elsewhere bp s holder s' holder') (hbefore : holder bp ≠ .proc r)
    (hafter : holder' bp ≠ .proc r) : Untouched s holder s' holder' r := by
  intro x
  by_cases hx : x = bp
  · subst hx
    exact ⟨iff_of_false hafter hbefore, fun hr => absurd hr hbefore⟩
  · obtain ⟨hholder, hqueue, hasync, -⟩ := h x hx
    rw [hholder, hasync]
    exact ⟨Iff.rfl, fun _ => ⟨hqueue.mp, id, (h.started hx).mpr⟩⟩

/-- A process owns its buffers as long as nobody touches them. -/
theorem Owns.untouched (h : Owns s holder r hand quiet calm hd) (hquiet : quiet ⊆ hand)
    (hcalm : calm ⊆ hand) (hr : Untouched s holder s' holder' r) :
    Owns s' holder' r hand quiet calm hd := by
  have hown : ∀ x, x ∈ hd ∨ x ∈ hand → holder x = .proc r := fun x => (h.own x).mpr
  refine ⟨fun x => (hr x).1.trans (h.own x), h.nodup,
    fun x hx => (h.started x hx).imp_right fun hs => ?_, fun x hx hq => ?_, fun x hx => ?_⟩
  · exact ((hr x).2 (hown x (Or.inr hx))).2.2 hs
  · exact h.quiet x hx (((hr x).2 (hown x (hx.imp_right fun hk => hquiet hk))).1 hq)
  · exact ((hr x).2 (hown x (hx.imp_right fun hk => hcalm hk))).2.1 (h.calm x hx)

/-- What a piece of code run by process `p` does to the headers. -/
structure Effect (p : π) (s : Headers π) (holder : Hdr → Holder π) (s' : Headers π)
    (holder' : Hdr → Holder π) : Prop where
  sound : Sound s' holder'
  kept : Kept s s'
  other : ∀ r, r ≠ p → Untouched s holder s' holder' r

/-- Two effects in a row. -/
theorem Effect.trans (h : Effect p s holder s' holder') (h' : Effect p s' holder' s'' holder'') :
    Effect p s holder s'' holder'' :=
  ⟨h'.sound, h.kept.trans h'.kept, fun r hr => (h.other r hr).trans (h'.other r hr)⟩

/-- Nobody depends on where the block of a header is. -/
theorem Effect.address (h : Effect p s holder s' holder') (dev blkno : Hdr → Dev) :
    Effect p s holder { s' with b_dev := dev, b_blkno := blkno } holder' := by
  obtain ⟨⟨hworld, hio, hactive⟩, hkept, hother⟩ := h
  refine ⟨⟨⟨hworld.avail, hworld.free, hworld.listed, hworld.head, hworld.swbuf, hworld.busy,
    hworld.calm, hworld.nodup, hworld.queue⟩, hio, hactive⟩,
    hkept.trans (Kept.of_fields rfl rfl (List.Subset.refl _) id), hother⟩

/-- A wakeup is an effect on sleepers only. -/
theorem Effect.wakeup (h : Effect p s holder s' holder') (chan : Hdr) :
    Effect p s holder (s'.wakeup chan) holder' := by
  obtain ⟨⟨hworld, hio, hactive⟩, hkept, hother⟩ := h
  refine ⟨⟨⟨hworld.avail, hworld.free, hworld.listed, hworld.head, hworld.swbuf, hworld.busy,
    hworld.calm, hworld.nodup, hworld.queue⟩, hio, hactive⟩, hkept.trans (Kept.of_woken ?_), hother⟩
  intro r x hr
  simp only [Headers.wakeup] at hr
  split_ifs at hr
  exact ⟨hr, rfl, id, fun _ => id⟩

/-- A piece of any routine but `swap`. -/
structure Piece (p : π) (s : Headers π) (holder : Hdr → Holder π) (s' : Headers π)
    (holder' : Hdr → Holder π) : Prop extends Effect p s holder s' holder' where
  swbuf : holder .swbuf ≠ .proc p → holder' .swbuf ≠ .proc p

theorem Piece.refl (h : Sound s holder) : Piece p s holder s holder :=
  ⟨⟨h, Kept.refl, fun _ _ => Untouched.refl⟩, id⟩

/-- Two pieces in a row. -/
theorem Piece.trans (h : Piece p s holder s' holder') (h' : Piece p s' holder' s'' holder'') :
    Piece p s holder s'' holder'' :=
  ⟨h.toEffect.trans h'.toEffect, fun hsw => h'.swbuf (h.swbuf hsw)⟩

/-! ## Pieces -/

/-- A buffer in hand is neither held nor in hand twice. -/
theorem Owns.notMem (h : Owns s holder p (bp :: hand) quiet calm hd) : bp ∉ hd ∧ bp ∉ hand := by
  have hnot : bp ∉ hand ++ hd := (List.nodup_cons.mp h.nodup).1
  rw [List.mem_append] at hnot
  exact ⟨fun hmem => hnot (Or.inr hmem), fun hmem => hnot (Or.inl hmem)⟩

/-- The buffer in hand belongs to the process. -/
theorem Owns.holder_eq (h : Owns s holder p (bp :: hand) quiet calm hd) : holder bp = .proc p :=
  (h.own bp).mpr (Or.inr List.mem_cons_self)

/-- The other buffers of the process. -/
theorem Owns.ne (h : Owns s holder p (bp :: hand) quiet calm hd) {x : Hdr}
    (hx : x ∈ hd ∨ x ∈ hand) : x ≠ bp := by
  rintro rfl
  exact hx.elim h.notMem.1 h.notMem.2

/-- The buffer in hand is given to the user. -/
theorem Owns.keep (h : Owns s holder p [bp] quiet [bp] hd) (hq : bp ∉ s.queue) :
    Owns s holder p [] [] [] (bp :: hd) := by
  refine ⟨fun x => ?_, h.nodup, fun x hx => absurd hx List.not_mem_nil, fun x hx => ?_,
    fun x hx => ?_⟩
  · rw [h.own x]
    simp [or_comm]
  · rcases List.mem_cons.mp (hx.resolve_right List.not_mem_nil) with rfl | hx
    · exact hq
    · exact h.quiet x (Or.inl hx)
  · rcases List.mem_cons.mp (hx.resolve_right List.not_mem_nil) with rfl | hx
    · exact h.calm x (Or.inr List.mem_cons_self)
    · exact h.calm x (Or.inl hx)

/-- The process has one buffer more. -/
theorem Owns.add (h : Owns s holder p hand quiet calm hd) (hbefore : holder bp ≠ .proc p)
    (he : Elsewhere bp s holder s' holder') (hbp : holder' bp = .proc p) (hq : bp ∉ s'.queue)
    (ha : (s'.b_flags bp).b_async = false) :
    Owns s' holder' p (bp :: hand) (bp :: quiet) (bp :: calm) hd := by
  have hnot : ¬ (bp ∈ hd ∨ bp ∈ hand) := fun hmem => hbefore ((h.own bp).mpr hmem)
  have hne : ∀ x, x ∈ hd ∨ x ∈ hand → x ≠ bp := by
    rintro x hx rfl
    exact hnot hx
  refine ⟨fun x => ?_, ?_, fun x hx => ?_, fun x hx => ?_, fun x hx => ?_⟩
  · by_cases hx : x = bp
    · simp [hx, hbp]
    · rw [(he x hx).1, h.own x]
      simp [hx]
  · rw [List.cons_append, List.nodup_cons, List.mem_append]
    exact ⟨fun hmem => hnot hmem.symm, h.nodup⟩
  · rcases List.mem_cons.mp hx with rfl | hx
    · exact Or.inl List.mem_cons_self
    · rw [he.started (hne x (Or.inr hx))]
      exact (h.started x hx).imp_left (List.mem_cons_of_mem bp)
  · by_cases hxbp : x = bp
    · rwa [hxbp]
    · rw [(he x hxbp).2.1]
      exact h.quiet x (by simpa [hxbp] using hx)
  · by_cases hxbp : x = bp
    · rwa [hxbp]
    · rw [(he x hxbp).2.2.1]
      exact h.calm x (by simpa [hxbp] using hx)

/-- The process has lost a buffer. -/
theorem Owns.drop (h : Owns s holder p (bp :: hand) [bp] calm hd) (hcalm : hand ⊆ calm)
    (he : Elsewhere bp s holder s' holder') (hbp : holder' bp ≠ .proc p) :
    Owns s' holder' p hand [] hand hd := by
  refine ⟨fun x => ?_, (List.nodup_cons.mp h.nodup).2, fun x hx => Or.inr ?_, fun x hx => ?_,
    fun x hx => ?_⟩
  · by_cases hx : x = bp
    · subst hx
      exact iff_of_false hbp fun hmem => h.ne hmem rfl
    · rw [(he x hx).1, h.own x]
      simp [hx]
  · have hxbp := h.ne (Or.inr hx)
    rw [he.started hxbp]
    apply (h.started x (List.mem_cons_of_mem bp hx)).resolve_left
    simpa using hxbp
  · have hx := hx.resolve_right List.not_mem_nil
    rw [(he x (h.ne (Or.inl hx))).2.1]
    exact h.quiet x (Or.inl hx)
  · rw [(he x (h.ne hx)).2.2.1]
    exact h.calm x (hx.imp_right fun hmem => hcalm hmem)

/-- The process goes on with the same buffers. -/
theorem Owns.stay {quiet' calm' : List Hdr} (h : Owns s holder p (bp :: hand) quiet calm hd)
    (he : Elsewhere bp s holder s' holder') (hbp : holder' bp = holder bp)
    (hquiet : quiet ⊆ [bp]) (hquiet' : quiet' ⊆ [bp]) (hcalm : calm' ⊆ bp :: calm)
    (hstart : bp ∈ quiet' ∨ s'.Started bp) (hq : bp ∈ quiet' → bp ∉ s'.queue)
    (ha : bp ∈ calm' → (s'.b_flags bp).b_async = false) :
    Owns s' holder' p (bp :: hand) quiet' calm' hd := by
  refine ⟨fun x => ?_, h.nodup, fun x hx => ?_, fun x hx => ?_, fun x hx => ?_⟩
  · rw [← h.own x]
    by_cases hx : x = bp
    · rw [hx, hbp]
    · rw [(he x hx).1]
  · rcases List.mem_cons.mp hx with rfl | hmem
    · exact hstart
    · have hxbp := h.ne (Or.inr hmem)
      rw [he.started hxbp]
      refine Or.inr ((h.started x hx).resolve_left fun hxq => hxbp ?_)
      exact List.mem_singleton.mp (hquiet hxq)
  · rcases hx with hx | hx
    · rw [(he x (h.ne (Or.inl hx))).2.1]
      exact h.quiet x (Or.inl hx)
    · obtain rfl := List.mem_singleton.mp (hquiet' hx)
      exact hq hx
  · by_cases hxbp : x = bp
    · subst hxbp
      exact ha (hx.resolve_left fun hmem => h.ne (Or.inl hmem) rfl)
    · rw [(he x hxbp).2.2.1]
      exact h.calm x (hx.imp_right fun hmem => (List.mem_cons.mp (hcalm hmem)).resolve_left hxbp)

/-- Whether somebody wants to be woken up is no concern of who has the header. -/
theorem untouched_want (bp : Hdr) :
    Untouched s holder (s.setFlags bp fun fl => { fl with b_wanted := true }) holder r := by
  refine fun x => ⟨Iff.rfl, fun _ => ⟨id, ?_, ?_⟩⟩
  · by_cases hx : x = bp
    · subst hx
      rw [Headers.setFlags_self]
      exact id
    · rw [Headers.setFlags_of_ne hx]
      exact id
  · unfold Headers.Started
    by_cases hx : x = bp
    · subst hx
      rw [Headers.setFlags_self]
      exact id
    · rw [Headers.setFlags_of_ne hx]
      exact id

/-- Somebody wants to be woken up. -/
theorem Sound.want (h : Sound s holder) (bp : Hdr) :
    Piece p s holder (s.setFlags bp fun fl => { fl with b_wanted := true }) holder := by
  have hset : World (s.setFlags bp fun fl => { fl with b_wanted := true }) holder :=
    h.setFlags _ (fun _ => rfl) (fun hne hfree => h.calm bp hne hfree) fun _ => ⟨rfl, rfl⟩
  exact ⟨⟨⟨hset, h.io, h.active⟩, Kept.setFlags bp _ id (fun _ => rfl) fun hx => ⟨hx.1, hx.2.1⟩,
    fun _ _ => untouched_want bp⟩, id⟩

theorem elsewhere_refl (bp : Hdr) : Elsewhere bp s holder s holder :=
  fun _ _ => ⟨rfl, Iff.rfl, rfl, rfl⟩

/-- Flags of one buffer do not concern the others. -/
theorem elsewhere_setFlags (bp : Hdr) (f : BFlags → BFlags) :
    Elsewhere bp s holder (s.setFlags bp f) holder := by
  intro x hx
  rw [Headers.setFlags_of_ne hx]
  exact ⟨rfl, Iff.rfl, rfl, rfl⟩

/-- Taking a buffer does not concern the others. -/
theorem elsewhere_notavail (bp : Hdr) :
    Elsewhere bp s holder (s.notavail bp) (update holder bp (.proc p)) := by
  intro x hx
  rw [Headers.notavail, Headers.setFlags_of_ne hx, update_of_ne hx]
  exact ⟨rfl, Iff.rfl, rfl, rfl⟩

/-- Releasing a buffer does not concern the others. -/
theorem elsewhere_brelse (bp : Hdr) :
    Elsewhere bp s holder (s.brelse bp) (update holder bp .avail) := by
  intro x hx
  obtain ⟨hdone, hasync⟩ := Headers.brelse_transfer_of_ne (s := s) hx
  rw [Headers.brelse_queue, update_of_ne hx]
  exact ⟨rfl, Iff.rfl, hasync, hdone⟩

/-- The flags of a header that process `p` has are changed. -/
theorem Sound.setFlags_own (h : Sound s holder) (hbp : holder bp = .proc p) (hq : bp ∉ s.queue)
    (f : BFlags → BFlags) (hbusy : (f (s.b_flags bp)).b_busy = (s.b_flags bp).b_busy)
    (hkept : Kept s (s.setFlags bp f)) : Piece p s holder (s.setFlags bp f) holder := by
  have hset : World (s.setFlags bp f) holder :=
    h.setFlags f (fun _ => hbusy) (fun _ hfree => by simp [hbp] at hfree) fun hmem =>
      absurd hmem hq
  refine ⟨⟨⟨hset, h.io, h.active⟩, hkept, fun r hr => ?_⟩, id⟩
  have hne : holder bp ≠ .proc r := by
    rw [hbp]
    simpa using hr.symm
  exact (elsewhere_setFlags bp f).untouched hne hne

/-- `notavail`: process `p` gets a buffer that was available. -/
theorem Sound.take (h : Sound s holder) (hbuf : bp.IsBuf) (hbp : holder bp = .avail) :
    Piece p s holder (s.notavail bp) (update holder bp (.proc p)) := by
  have hne : ∀ x, x ≠ bp → update holder bp (.proc p) x = holder x := fun x hx => update_of_ne hx ..
  refine ⟨⟨⟨h.notavail hbuf hbp p, fun x hx => ?_, h.active⟩, ?_, fun r hr => ?_⟩,
    fun hsw => ?_⟩
  · have hxbp : x ≠ bp := by
      rintro rfl
      simp at hx
    exact h.io x (hne x hxbp ▸ hx)
  · have herase : Kept s { s with avail := s.avail.erase bp } :=
      Kept.of_fields rfl rfl (List.Subset.refl _) fun havail => by simp [havail]
    exact herase.trans (Kept.setFlags bp _ (fun _ => rfl) id fun hx => ⟨hx.1, hx.2.1⟩)
  · exact (elsewhere_notavail bp).untouched (by simp [hbp]) (by simpa using hr.symm)
  · rw [hne]
    · exact hsw
    · rintro rfl
      exact hbuf

/-- The buffer that was taken is in hand. -/
theorem Owns.take (ho : Owns s holder p hand quiet calm hd) (h : Sound s holder)
    (hbuf : bp.IsBuf) (hbp : holder bp = .avail) :
    Owns (s.notavail bp) (update holder bp (.proc p)) p (bp :: hand) (bp :: quiet) (bp :: calm)
      hd := by
  have hq : bp ∉ s.queue := fun hmem => (h.queue bp hmem).1 hbp
  have hne : bp ≠ .bfreelist := by
    rintro rfl
    exact hbuf
  refine ho.add (by simp [hbp]) (elsewhere_notavail bp) (update_self ..) hq ?_
  rw [Headers.notavail, Headers.setFlags_self]
  exact h.calm bp hne hbp

/-- `brelse`: process `p` releases a buffer. -/
theorem Sound.release (h : Sound s holder) (hbuf : bp.IsBuf) (hbp : holder bp = .proc p)
    (hq : bp ∉ s.queue) : Piece p s holder (s.brelse bp) (update holder bp .avail) := by
  have hne : ∀ x, x ≠ bp → update holder bp .avail x = holder x := fun x hx => update_of_ne hx ..
  have hhold : holder bp ≠ .avail := by simp [hbp]
  refine ⟨⟨⟨h.brelse hbuf hhold hq, fun x hx => ?_, ?_⟩, Kept.brelse fun hmem => absurd hmem hq,
    fun r hr => ?_⟩, fun hsw => ?_⟩
  · have hxbp : x ≠ bp := by
      rintro rfl
      simp at hx
    rw [Headers.brelse_queue]
    exact h.io x (hne x hxbp ▸ hx)
  · rw [Headers.brelse_d_active, Headers.brelse_queue]
    exact h.active
  · refine (elsewhere_brelse bp).untouched ?_ (by simp)
    rw [hbp]
    simpa using hr.symm
  · rw [hne]
    · exact hsw
    · rintro rfl
      exact hbuf

/-- Of the headers and lists `assign` changes those that it is for. -/
theorem Headers.assign_eq (bp : Hdr) (dp : Ptr) (dev blkno : Dev) (s : Headers π) :
    ∃ l, (∀ x ∈ l, x = bp ∨ x ∈ s.rktab) ∧ s.assign bp dp dev blkno =
      { s.setFlags bp fun _ => { b_busy := true } with
        rktab := l
        b_dev := update s.b_dev bp dev
        b_blkno := update s.b_blkno bp blkno } := by
  unfold assign
  dsimp only
  split
  · refine ⟨_, fun x hx => ?_, rfl⟩
    exact (List.mem_cons.mp hx).imp_right List.mem_of_mem_erase
  · exact ⟨_, fun x hx => Or.inr (List.mem_of_mem_erase hx), rfl⟩

/-- The end of `getblk`: process `p` reassigns a buffer that nobody waits for. -/
theorem Sound.assign (h : Sound s holder) (hbuf : bp.IsBuf) (hbp : holder bp = .proc p)
    (hq : bp ∉ s.queue) (hnobody : ∀ r, s.p_wchan r ≠ some bp) (dp : Ptr) (dev blkno : Dev) :
    Piece p s holder (s.assign bp dp dev blkno) holder ∧
      Elsewhere bp s holder (s.assign bp dp dev blkno) holder ∧
      (s.assign bp dp dev blkno).queue = s.queue ∧
      ((s.assign bp dp dev blkno).b_flags bp).b_async = false := by
  have hbusy : (s.b_flags bp).b_busy = true :=
    (h.busy bp (h.ne_bfreelist (by simp [hbp]))).mpr (by simp [hbp])
  obtain ⟨⟨hsound, hkept, hother⟩, hsw⟩ := h.setFlags_own hbp hq (fun _ => { b_busy := true })
    hbusy.symm (Kept.setFlags_of_none _ hnobody)
  have he : Elsewhere bp s holder (s.setFlags bp fun _ => { b_busy := true }) holder :=
    elsewhere_setFlags bp _
  have hasync : ((s.setFlags bp fun _ => { b_busy := true }).b_flags bp).b_async = false := by
    rw [Headers.setFlags_self]
  obtain ⟨l, hl, hassign⟩ := s.assign_eq bp dp dev blkno
  rw [hassign]
  refine ⟨⟨⟨⟨⟨hsound.avail, hsound.free, fun x hx => ?_, hsound.head, hsound.swbuf, hsound.busy,
    hsound.calm, hsound.nodup, hsound.queue⟩, hsound.io, hsound.active⟩,
    hkept.trans (Kept.of_fields rfl rfl (List.Subset.refl _) id), hother⟩, hsw⟩, he, rfl, ?_⟩
  · rcases hl x hx with rfl | hmem
    · exact hbuf
    · exact h.listed x hmem
  · exact hasync

/-- Process `p` takes `swbuf`, or clears it. -/
theorem Sound.setFlags_swbuf (h : Sound s holder) (hq : .swbuf ∉ s.queue)
    (hnobody : ∀ r, s.p_wchan r ≠ some .swbuf) (hbefore : ∀ r, r ≠ p → holder .swbuf ≠ .proc r)
    (f : BFlags → BFlags) {a : Holder π} (ha : a = .avail ∨ a = .proc p)
    (hbusy : (f (s.b_flags .swbuf)).b_busy = true ↔ a ≠ .avail)
    (hcalm : (f (s.b_flags .swbuf)).b_async = false) :
    Effect p s holder (s.setFlags .swbuf f) (update holder .swbuf a) ∧
      Elsewhere .swbuf s holder (s.setFlags .swbuf f) (update holder .swbuf a) := by
  have hio : a ≠ .io := by rcases ha with rfl | rfl <;> simp
  have he : Elsewhere .swbuf s holder (s.setFlags .swbuf f) (update holder .swbuf a) := by
    intro x hx
    rw [Headers.setFlags_of_ne hx, update_of_ne hx]
    exact ⟨rfl, Iff.rfl, rfl, rfl⟩
  refine ⟨⟨⟨h.toWorld.setFlags_swbuf f hio hbusy hcalm hq, fun x hx => ?_, h.active⟩,
    Kept.setFlags_of_none f hnobody, fun r hr => he.untouched (hbefore r hr) ?_⟩, he⟩
  · have hxsw : x ≠ .swbuf := by
      rintro rfl
      rw [update_self] at hx
      exact hio hx
    exact h.io x ((he x hxsw).1 ▸ hx)
  · rw [update_self]
    rcases ha with rfl | rfl
    · simp
    · simpa using hr.symm

/-- Nobody sleeps on a header that is not busy. -/
theorem World.nobody (h : World s holder) (hbp : bp ≠ .bfreelist) (hfree : holder bp = .avail)
    {k : Pc} : ¬ k.Awaits s bp := by
  have hbusy : ¬ s.Contended bp := fun hx => (h.busy bp hbp).mp hx.1 hfree
  have hqueue : ¬ s.InTransfer bp := fun hx => (h.queue bp hx.2.2).1 hfree
  exact fun hk => hk.elim hbp hbusy hqueue

end

/-! ## Requests and interrupts -/

namespace Headers

variable {s : Headers π} {bp : Hdr}

theorem rkstart_eq (s : Headers π) : s.rkstart =
    { s with d_active := if s.queue = [] then s.d_active else s.d_active + 1 } := by
  unfold rkstart
  split <;> rfl

/-- A request that is not rejected. -/
theorem rkstrategy_queued (hok : Bio.rkRejects (s.b_dev bp) (s.b_blkno bp) = false) :
    s.rkstrategy bp =
      { s with
        queue := s.queue ++ [bp]
        d_active := if s.d_active = 0 then s.d_active + 1 else s.d_active } := by
  unfold rkstrategy
  dsimp only
  rw [if_neg (by simp [hok])]
  split
  · rw [rkstart, if_neg (by simp)]
  · rfl

/-- A request that is rejected ends at once. -/
theorem rkstrategy_rejected (hreject : Bio.rkRejects (s.b_dev bp) (s.b_blkno bp) = true) :
    s.rkstrategy bp = iodone bp (s.setFlags bp fun fl => { fl with b_error := true }) := by
  rw [rkstrategy, if_pos hreject]

end Headers

section

variable {s s' : Headers π} {holder holder' : Hdr → Holder π} {p : π} {bp : Hdr}
  {hand quiet calm hd : List Hdr}

/-- What a request does: an asynchronous one takes the buffer from the process. -/
structure Requested (p : π) (s : Headers π) (holder : Hdr → Holder π) (bp : Hdr) (s' : Headers π)
    (holder' : Hdr → Holder π) : Prop where
  sound : Sound s' holder'
  kept : Kept s s'
  other : Elsewhere bp s holder s' holder'
  async : (s.b_flags bp).b_async = true → ∀ r, holder' bp ≠ .proc r
  sync : (s.b_flags bp).b_async = false → holder' bp = holder bp ∧
    (s'.b_flags bp).b_async = false ∧ s'.Started bp

/-- A request is handed to the driver. -/
theorem Sound.strategy (h : Sound s holder) (hbp : holder bp = .proc p) (hq : bp ∉ s.queue)
    (hdone : (s.b_flags bp).b_done = false) (hbuf : (s.b_flags bp).b_async = true → bp.IsBuf)
    (hs : s.strategy bp = some s') : ∃ holder', Requested p s holder bp s' holder' := by
  obtain ⟨dp, -, rfl⟩ := Option.map_eq_some_iff.mp hs
  have hhold : holder bp ≠ .avail := by simp [hbp]
  have hnotio : holder bp ≠ .io := by simp [hbp]
  cases hok : Bio.rkRejects (s.b_dev bp) (s.b_blkno bp) with
  | true =>
    -- the request ends at once, with an error
    rw [Headers.rkstrategy_rejected hok]
    have hset : World (s.setFlags bp fun fl => { fl with b_error := true }) holder :=
      h.setFlags _ (fun _ => rfl) (fun _ hfree => absurd hfree hhold) fun _ => ⟨rfl, rfl⟩
    have hasync : ((s.setFlags bp fun fl => { fl with b_error := true }).b_flags bp).b_async =
        (s.b_flags bp).b_async := by
      rw [Headers.setFlags_self]
    have hworld := hset.iodone hhold hq (hasync ▸ hbuf)
    rw [hasync] at hworld
    have hend : Kept (s.setFlags bp fun fl => { fl with b_error := true })
        ((s.setFlags bp fun fl => { fl with b_error := true }).iodone bp) :=
      Kept.iodone s.d_active fun x hx => Or.inr hx
    refine ⟨_, ⟨hworld, fun x hx => ?_, ?_⟩,
      (Kept.setFlags bp _ id id fun hx => ⟨hx.1, hx.2.1⟩).trans hend, fun x hx => ⟨?_, ?_, ?_⟩,
      fun ha r => ?_,
      fun ha => ⟨?_, ?_⟩⟩
    · rw [Headers.iodone_queue]
      apply h.io
      split at hx
      · by_cases hxbp : x = bp
        · rw [hxbp, update_self] at hx
          cases hx
        · rwa [update_of_ne hxbp] at hx
      · exact hx
    · rw [Headers.iodone_queue, Headers.iodone_d_active]
      exact h.active
    · split
      · rw [update_of_ne hx]
      · rfl
    · rw [Headers.iodone_queue]
      rfl
    · obtain ⟨hdone', hasync'⟩ := Headers.iodone_transfer_of_ne
        (s := s.setFlags bp fun fl => { fl with b_error := true }) hx
      rw [hdone', hasync', Headers.setFlags_of_ne hx]
      exact ⟨rfl, rfl⟩
    · rw [if_pos ha, update_self]
      simp
    · rw [if_neg (by simp [ha])]
    · obtain ⟨hdone', hasync'⟩ := Headers.iodone_sync (hasync.trans ha)
      exact ⟨hasync', Or.inl hdone'⟩
  | false =>
    rw [Headers.rkstrategy_queued hok]
    have hkept : Kept s
        { s with
          queue := s.queue ++ [bp]
          d_active := if s.d_active = 0 then s.d_active + 1 else s.d_active } :=
      Kept.of_fields rfl rfl (List.subset_append_left ..) id
    have hmem : ∀ x, x ≠ bp → (x ∈ s.queue ++ [bp] ↔ x ∈ s.queue) := by
      intro x hx
      simp [hx]
    have hnodup : (s.queue ++ [bp]).Nodup :=
      List.nodup_append.mpr ⟨h.nodup, List.nodup_singleton bp, fun x hx y hy => by
        rw [List.mem_singleton.mp hy]
        exact ne_of_mem_of_not_mem hx hq⟩
    have hactive : (if s.d_active = 0 then s.d_active + 1 else s.d_active) = 0 ↔
        s.queue ++ [bp] = [] := by
      split <;> simp [*]
    cases ha : (s.b_flags bp).b_async with
    | true =>
      -- from now on nobody has the buffer
      have hne : ∀ x, x ≠ bp → update holder bp .io x = holder x := fun x hx => update_of_ne hx ..
      have hav : ∀ x, update holder bp .io x = .avail ↔ holder x = .avail := by
        intro x
        by_cases hx : x = bp
        · simp [hx, hhold]
        · rw [hne x hx]
      have hsw : Hdr.swbuf ≠ bp := by
        rintro rfl
        exact hbuf ha
      refine ⟨update holder bp .io, ⟨⟨h.avail, fun x hx => ?_, h.listed, ?_, ?_, fun x hx => ?_,
        fun x hx hfree => ?_, hnodup, fun x hx => ?_⟩, fun x hx => ?_, hactive⟩, hkept,
        fun x hx => ⟨hne x hx, hmem x hx, rfl, rfl⟩, fun _ r => by simp, by simp [ha]⟩
      · exact ⟨(h.free x hx).1, (hav x).mpr (h.free x hx).2⟩
      · exact (hav _).mpr h.head
      · rw [hne _ hsw]
        exact h.swbuf
      · rw [Ne, hav]
        exact h.busy x hx
      · exact h.calm x hx ((hav x).mp hfree)
      · rw [Ne, hav]
        by_cases hxbp : x = bp
        · subst hxbp
          simp [hhold, hdone, ha]
        · rw [hne x hxbp]
          exact h.queue x ((hmem x hxbp).mp hx)
      · by_cases hxbp : x = bp
        · simp [hxbp]
        · exact (hmem x hxbp).mpr (h.io x (hne x hxbp ▸ hx))
    | false =>
      refine ⟨holder, ⟨⟨h.avail, h.free, h.listed, h.head, h.swbuf, h.busy, h.calm, hnodup,
        fun x hx => ?_⟩, fun x hx => List.mem_append_left _ (h.io x hx), hactive⟩, hkept,
        fun x hx => ⟨rfl, hmem x hx, rfl, rfl⟩, by simp [ha], fun _ => ⟨rfl, ha, Or.inr ?_⟩⟩
      · by_cases hxbp : x = bp
        · subst hxbp
          simp [hhold, hdone, ha, hnotio]
        · exact h.queue x ((hmem x hxbp).mp hx)
      · simp

/-- A request that was made is a piece of code. -/
theorem Requested.piece (h : Requested p s holder bp s' holder') (hbp : holder bp = .proc p) :
    Piece p s holder s' holder' := by
  refine ⟨⟨h.sound, h.kept, fun r hr => h.other.untouched ?_ ?_⟩, fun hsw => ?_⟩
  · rw [hbp]
    simpa using hr.symm
  · cases ha : (s.b_flags bp).b_async with
    | true => exact h.async ha r
    | false =>
      rw [(h.sync ha).1, hbp]
      simpa using hr.symm
  · rw [(h.other .swbuf _).1]
    · exact hsw
    · rintro rfl
      exact hsw hbp

/-- A request for a buffer in hand, whose flags `f` sets just before. -/
theorem Sound.request (h : Sound s holder) (ho : Owns s holder p (bp :: hand) [bp] calm hd)
    (hcalm : hand ⊆ calm) (hbuf : bp.IsBuf) (f : BFlags → BFlags)
    (hbusy : (f (s.b_flags bp)).b_busy = (s.b_flags bp).b_busy)
    (hwanted : (f (s.b_flags bp)).b_wanted = (s.b_flags bp).b_wanted)
    (hdone : (f (s.b_flags bp)).b_done = false)
    (hs : (s.setFlags bp f).strategy bp = some s') :
    ∃ holder', Piece p s holder s' holder' ∧
      ((f (s.b_flags bp)).b_async = true → Owns s' holder' p hand [] hand hd) ∧
      ((f (s.b_flags bp)).b_async = false →
        Owns s' holder' p (bp :: hand) [] (bp :: hand) hd) := by
  have hbp := ho.holder_eq
  have hq := ho.quiet bp (Or.inr List.mem_cons_self)
  have hset : Piece p s holder (s.setFlags bp f) holder :=
    h.setFlags_own hbp hq f hbusy (Kept.setFlags bp f (fun hb => hbusy.trans hb)
      (fun hw => hwanted.trans hw) fun hx => absurd hx.2.2 hq)
  have hself : (s.setFlags bp f).b_flags bp = f (s.b_flags bp) := Headers.setFlags_self ..
  -- the disk queue takes the buffer over
  obtain ⟨holder', hreq⟩ :=
    hset.sound.strategy hbp hq (by rw [hself, hdone]) (fun _ => hbuf) hs
  have he : Elsewhere bp s holder s' holder' := by
    intro x hx
    obtain ⟨hholder, hqueue, hasync, hdone'⟩ := hreq.other x hx
    rw [hholder, hqueue, hasync, hdone', Headers.setFlags_of_ne hx]
    exact ⟨rfl, Iff.rfl, rfl, rfl⟩
  refine ⟨holder', hset.trans (hreq.piece hbp), fun ha => ?_, fun ha => ?_⟩
  · exact ho.drop hcalm he (hreq.async (by rw [hself, ha]) p)
  · obtain ⟨hsame, hasync, hstart⟩ := hreq.sync (by rw [hself, ha])
    exact ho.stay he hsame (List.Subset.refl _) (List.nil_subset _) (List.cons_subset_cons _ hcalm)
      (Or.inr hstart) (fun hmem => absurd hmem List.not_mem_nil) fun _ => hasync

/-- Process `p` takes `swbuf` and starts a transfer. -/
theorem Sound.swap (h : Sound s holder) (ho : Owns s holder p [] [] [] hd)
    (hfree : holder .swbuf = .avail) (hnobody : ∀ r, s.p_wchan r ≠ some .swbuf)
    (dev blkno : Hdr → Dev) (rdflg : Bool)
    (hs : Headers.strategy .swbuf
      { s.setFlags .swbuf fun _ => { b_busy := true, b_phys := true, b_read := rdflg } with
        b_dev := dev
        b_blkno := blkno } = some s') :
    ∃ holder', Effect p s holder s' holder' ∧ Owns s' holder' p [.swbuf] [] [.swbuf] hd := by
  have hq : .swbuf ∉ s.queue := fun hmem => (h.queue .swbuf hmem).1 hfree
  have hno : holder .swbuf ≠ .proc p := by simp [hfree]
  -- `swbuf` is free: the flags take it
  obtain ⟨htake, he⟩ := h.setFlags_swbuf hq hnobody (p := p) (a := .proc p) (by simp [hfree])
    (fun _ => { b_busy := true, b_phys := true, b_read := rdflg }) (Or.inr rfl) (by simp) rfl
  obtain ⟨s₁, hs₁⟩ : ∃ s₁, s₁ =
      s.setFlags .swbuf fun _ => { b_busy := true, b_phys := true, b_read := rdflg } := ⟨_, rfl⟩
  have hself : s₁.b_flags .swbuf = { b_busy := true, b_phys := true, b_read := rdflg } := by
    rw [hs₁, Headers.setFlags_self]
  have hq₁ : .swbuf ∉ s₁.queue := by
    rw [hs₁]
    exact hq
  rw [← hs₁] at hs htake he
  have hown : update holder .swbuf (.proc p) .swbuf = .proc p := update_self ..
  have hset := htake.address dev blkno
  -- and the transfer is started, to be waited for
  obtain ⟨holder', hreq⟩ := hset.sound.strategy hown hq₁ (congrArg BFlags.b_done hself)
    (fun ha => absurd ha (by simp [hself])) hs
  obtain ⟨hsame, hasync, hstart⟩ := hreq.sync (congrArg BFlags.b_async hself)
  have he' : Elsewhere .swbuf s₁ (update holder .swbuf (.proc p)) s' holder' := hreq.other
  refine ⟨holder', hset.trans (hreq.piece hown).toEffect, ?_⟩
  exact (ho.add hno he hown hq₁ (by rw [hself])).stay he' hsame (List.Subset.refl _)
    (List.nil_subset _) (List.subset_cons_self ..) (Or.inr hstart)
    (fun hmem => absurd hmem List.not_mem_nil) fun _ => hasync

/-- The interrupt of the disk concerns no process, but a buffer may become available. -/
theorem Sound.rkintr (h : Sound s holder) : ∃ holder', Sound s.rkintr holder' ∧
    Kept s s.rkintr ∧ (∀ r, Untouched s holder s.rkintr holder' r) ∧
      ∀ x, holder x = .avail → holder' x = .avail := by
  cases hq : s.queue with
  | nil =>
    have hidle : s.rkintr = s := by rw [Headers.rkintr, if_pos (h.active.mpr hq)]
    rw [hidle]
    exact ⟨holder, h, Kept.refl, fun _ => Untouched.refl, fun _ => id⟩
  | cons bp q =>
    have hactive : s.d_active ≠ 0 := by simp [h.active, hq]
    obtain ⟨s₁, hs₁⟩ : ∃ s₁, s₁ = Headers.iodone bp { s with d_active := 0, queue := q } := ⟨_, rfl⟩
    have hrkintr : s.rkintr = s₁.rkstart := by rw [Headers.rkintr, if_neg hactive, hq, hs₁]
    have hnodup : bp ∉ q ∧ q.Nodup := List.nodup_cons.mp (hq ▸ h.nodup)
    obtain ⟨hhold, hdone, hasync⟩ := h.queue bp (hq ▸ List.mem_cons_self)
    have hmem : ∀ x, x ∈ q → x ∈ s.queue := fun x hx => hq ▸ List.mem_cons_of_mem bp hx
    have hqueue : s₁.queue = q := by rw [hs₁, Headers.iodone_queue]
    have hzero : s₁.d_active = 0 := by rw [hs₁, Headers.iodone_d_active]
    -- the one at the head goes to the available list, or is left to the process that waits for it
    obtain ⟨holder', hholder', hworld⟩ : ∃ holder', holder' = (if (s.b_flags bp).b_async then
        update holder bp .avail else holder) ∧ World s₁ holder' := by
      refine ⟨_, rfl, ?_⟩
      have hpop : World { s with d_active := 0, queue := q } holder :=
        ⟨h.avail, h.free, h.listed, h.head, h.swbuf, h.busy, h.calm, hnodup.2,
          fun x hx => h.queue x (hmem x hx)⟩
      rw [hs₁]
      refine hpop.iodone hhold hnodup.1 fun ha => ?_
      have hio := hasync.mp ha
      refine h.isBuf hhold ?_
      rintro rfl
      exact h.swbuf hio
    have hne : ∀ x, x ≠ bp → holder' x = holder x := by
      intro x hx
      rw [hholder']
      split
      · exact update_of_ne hx ..
      · rfl
    have hself : holder' bp = holder bp ∧ (s.b_flags bp).b_async = false ∨
        holder' bp = .avail ∧ holder bp = .io := by
      rw [hholder']
      cases ha : (s.b_flags bp).b_async with
      | true => exact Or.inr ⟨by simp, hasync.mp ha⟩
      | false => exact Or.inl ⟨by simp, rfl⟩
    have hkept : Kept s s₁ := by
      rw [hs₁]
      apply Kept.iodone
      intro x hx
      rwa [hq, List.mem_cons] at hx
    have huntouched : ∀ r, Untouched s holder s₁ holder' r := by
      intro r x
      by_cases hx : x = bp
      · subst hx
        rcases hself with ⟨hsame, ha⟩ | ⟨hav, hio⟩
        · obtain ⟨hdone', hasync'⟩ :=
            @Headers.iodone_sync π { s with d_active := 0, queue := q } x ha
          rw [hsame, hqueue, Headers.Started, Headers.Started, hs₁, hdone', hasync']
          exact ⟨Iff.rfl, fun _ => ⟨hmem x, fun _ => rfl, fun _ => Or.inl rfl⟩⟩
        · rw [hav, hio]
          simp
      · obtain ⟨hdone', hasync'⟩ :=
          Headers.iodone_transfer_of_ne (s := { s with d_active := 0, queue := q }) hx
        rw [hne x hx, hqueue, Headers.Started, Headers.Started, hqueue, hs₁, hdone', hasync', hq]
        refine ⟨Iff.rfl, fun _ => ⟨List.mem_cons_of_mem bp, id, fun hstart => ?_⟩⟩
        exact hstart.imp_right fun hmem => (List.mem_cons.mp hmem).resolve_left hx
    rw [hrkintr, Headers.rkstart_eq]
    refine ⟨holder', ⟨?_, fun x hx => ?_, ?_⟩, ?_, huntouched, fun x hx => ?_⟩
    · exact ⟨hworld.avail, hworld.free, hworld.listed, hworld.head, hworld.swbuf, hworld.busy,
        hworld.calm, hworld.nodup, hworld.queue⟩
    · have hxbp : x ≠ bp := by
        rintro rfl
        rcases hself with ⟨hsame, ha⟩ | ⟨hav, -⟩
        · rw [hsame, ← hasync, ha] at hx
          cases hx
        · rw [hav] at hx
          cases hx
      have hmem := h.io x (hne x hxbp ▸ hx)
      rw [hq, List.mem_cons] at hmem
      rw [hqueue]
      exact hmem.resolve_left hxbp
    · by_cases hnil : s₁.queue = []
      · simp [hnil, hzero]
      · simp [hnil]
    · exact hkept.trans (Kept.of_fields rfl rfl (List.Subset.refl _) id)
    · by_cases hxbp : x = bp
      · rcases hself with ⟨hsame, -⟩ | ⟨hav, -⟩
        · rw [hxbp, hsame, ← hxbp, hx]
        · rw [hxbp, hav]
      · rw [hne x hxbp, hx]

end

end UnixV6.BufWait
