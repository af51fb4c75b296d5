import UnixV6.Dmr.BioData
import UnixV6.Dmr.BufferCache

/-!
# The contents of the cache over its pieces of code

Each process that reads has in hand the buffer it asked for (`Pc.Reads`). With that, every piece of
code, every interrupt and every call keeps the contents where `Coherent` says: there is one lemma
for each piece, over those of the routines.
-/

open Function

namespace UnixV6

variable {π β : Type}

/-! ## What a reader has in hand -/

/-- The buffer belongs to the block, and is valid or being read. -/
def Got (s : Bio π β) (bp : Ptr) (dev blkno : Dev) : Prop :=
  s.b_dev bp = dev ∧ s.b_blkno bp = blkno ∧
    ((s.b_flags bp).b_done = true ∨ (s.b_flags bp).b_read = true)

/-- The buffer in hand is the one that was asked for. -/
def GetblkRet.Reads (s : Bio π β) : GetblkRet → Prop
  | .readahead dev blkno (some bp) => Got s bp dev blkno
  | _ => True

/-- `getblk` has been called for the block of its caller. -/
def GetblkRet.For (d b : Dev) : GetblkRet → Prop
  | .bread dev blkno => d = dev ∧ b = blkno
  | .breada dev blkno _ => d = dev ∧ b = blkno
  | _ => True

@[inherit_doc GetblkRet.Reads]
def BwriteRet.Reads (s : Bio π β) : BwriteRet → Prop
  | .getblk dev blkno k => k.Reads s ∧ k.For dev blkno
  | _ => True

@[inherit_doc GetblkRet.Reads]
def IowaitRet.Reads (s : Bio π β) (bp : Ptr) : IowaitRet → Prop
  | .read dev blkno => Got s bp dev blkno
  | .write k => k.Reads s

@[inherit_doc GetblkRet.Reads]
def Pc.Reads (s : Bio π β) : Pc → Prop
  | .getblk dev blkno k | .getblkFound _ dev blkno k | .getblkAvail dev blkno k
  | .getblkOldest dev blkno k | .getblkReuse _ dev blkno k => k.Reads s ∧ k.For dev blkno
  | .getblkTake bp k => k.Reads s ∧ k.For (s.b_dev bp) (s.b_blkno bp)
  | .bread bp dev blkno | .breadaRead bp dev blkno _ => s.b_dev bp = dev ∧ s.b_blkno bp = blkno
  | .readahead dev blkno _ (some bp) | .readaheadRead _ dev blkno (some bp) => Got s bp dev blkno
  | .bwrite _ k | .brelse _ k => k.Reads s
  | .iowait bp k => k.Reads s bp
  | _ => True

/-- The buffer keeps its block, and stays valid or being read. -/
def Keeps (s s' : Bio π β) (x : Ptr) : Prop :=
  s'.b_dev x = s.b_dev x ∧ s'.b_blkno x = s.b_blkno x ∧
    ((s.b_flags x).b_done = true ∨ (s.b_flags x).b_read = true →
      (s'.b_flags x).b_done = true ∨ (s'.b_flags x).b_read = true)

variable {s s' : Bio π β} {bp x : Ptr} {dev blkno : Dev}

/-- It is enough that four fields of the header stay. -/
theorem Keeps.of_eq (hdev : s'.b_dev x = s.b_dev x) (hblk : s'.b_blkno x = s.b_blkno x)
    (hfl : (s'.b_flags x).b_done = (s.b_flags x).b_done ∧
      (s'.b_flags x).b_read = (s.b_flags x).b_read) : Keeps s s' x := by
  refine ⟨hdev, hblk, fun h => ?_⟩
  rw [hfl.1, hfl.2]
  exact h

theorem Keeps.refl (s : Bio π β) (x : Ptr) : Keeps s s x :=
  ⟨rfl, rfl, id⟩

/-- Two changes in a row. -/
theorem Keeps.trans {s'' : Bio π β} (h : Keeps s s' x) (h' : Keeps s' s'' x) : Keeps s s'' x :=
  ⟨h'.1.trans h.1, h'.2.1.trans h.2.1, fun hx => h'.2.2 (h.2.2 hx)⟩

theorem Got.keeps (h : Got s bp dev blkno) (hk : Keeps s s' bp) : Got s' bp dev blkno :=
  ⟨hk.1.trans h.1, hk.2.1.trans h.2.1, hk.2.2 h.2.2⟩

/-- What the rest of `getblk` knows of its buffers stays true if they are left alone. -/
theorem GetblkRet.Reads.keeps {k : GetblkRet} (h : k.Reads s) (hk : ∀ x ∈ k.hand, Keeps s s' x) :
    k.Reads s' := by
  cases k with
  | readahead dev blkno rbp =>
    cases rbp with
    | none => trivial
    | some bp => exact Got.keeps h (hk bp (by simp [hand]))
  | _ => trivial

/-- What the rest of `bwrite` knows of its buffers stays true if they are left alone. -/
theorem BwriteRet.Reads.keeps {k : BwriteRet} (h : k.Reads s) (hk : ∀ x ∈ k.hand, Keeps s s' x) :
    k.Reads s' := by
  cases k with
  | getblk dev blkno k => exact ⟨GetblkRet.Reads.keeps h.1 hk, h.2⟩
  | _ => trivial

/-- What the rest of `iowait` knows of its buffers stays true if they are left alone. -/
theorem IowaitRet.Reads.keeps {k : IowaitRet} (h : k.Reads s bp) (hbp : Keeps s s' bp)
    (hk : ∀ x ∈ k.hand, Keeps s s' x) : k.Reads s' bp := by
  cases k with
  | read dev blkno => exact Got.keeps h hbp
  | write k => exact BwriteRet.Reads.keeps h hk

/-- What a process knows of its buffers stays true if they are left alone. -/
theorem Pc.Reads.keeps {k : Pc} (h : k.Reads s) (hk : ∀ x ∈ k.hand, Keeps s s' x)
    (htake : ∀ bp k', k = .getblkTake bp k' → Keeps s s' bp) : k.Reads s' := by
  cases k with
  | getblk | getblkFound | getblkAvail | getblkOldest => exact ⟨GetblkRet.Reads.keeps h.1 hk, h.2⟩
  | getblkReuse bp d b k =>
    exact ⟨GetblkRet.Reads.keeps h.1 fun x hx => hk x (List.mem_cons_of_mem _ hx), h.2⟩
  | getblkTake bp k =>
    -- the buffer found is not in hand yet
    have hbp := htake bp k rfl
    refine ⟨GetblkRet.Reads.keeps h.1 hk, ?_⟩
    rw [hbp.1, hbp.2.1]
    exact h.2
  | bread bp d b =>
    have hbp := hk bp List.mem_cons_self
    exact ⟨hbp.1.trans h.1, hbp.2.1.trans h.2⟩
  | breadaRead bp d b r =>
    have hbp := hk bp List.mem_cons_self
    exact ⟨hbp.1.trans h.1, hbp.2.1.trans h.2⟩
  | readahead d b r rbp =>
    cases rbp with
    | none => trivial
    | some bp => exact Got.keeps h (hk bp (by simp [hand]))
  | readaheadRead ra d b rbp =>
    cases rbp with
    | none => trivial
    | some bp => exact Got.keeps h (hk bp (by simp [hand]))
  | bwrite bp k | brelse bp k =>
    exact BwriteRet.Reads.keeps h fun x hx => hk x (List.mem_cons_of_mem _ hx)
  | iowait bp k =>
    exact IowaitRet.Reads.keeps h (hk bp List.mem_cons_self) fun x hx =>
      hk x (List.mem_cons_of_mem _ hx)
  | _ => trivial

/-- The buffer that `breada` waits for is being read or has been read. -/
theorem GetblkRet.done_or_read {k : GetblkRet} {s : Bio π β} (hx : x ∈ k.hand) (hk : k.Reads s) :
    (s.b_flags x).b_done = true ∨ (s.b_flags x).b_read = true := by
  cases k with
  | readahead dev blkno rbp =>
    cases rbp with
    | none => cases hx
    | some bp =>
      obtain rfl : x = bp := by simpa [GetblkRet.hand] using hx
      exact hk.2.2
  | _ => cases hx

/-- The buffer that `bwrite` returns to is being read or has been read. -/
theorem BwriteRet.done_or_read {k : BwriteRet} {s : Bio π β} (hx : x ∈ k.hand) (hk : k.Reads s) :
    (s.b_flags x).b_done = true ∨ (s.b_flags x).b_read = true := by
  cases k with
  | getblk dev blkno k => exact GetblkRet.done_or_read hx hk.1
  | _ => cases hx

/-- Why a process has a buffer in hand. -/
theorem Pc.hand_cases {k : Pc} {s : Bio π β} (hx : x ∈ k.hand) (hk : k.Reads s) :
    x ∈ k.quiet ∨ k.awaits x ∨ (s.b_flags x).b_done = true ∨ (s.b_flags x).b_read = true := by
  -- by the piece: a buffer in hand is quiet, awaited, or already read
  cases k with
  | user | breada | bflush => cases hx
  | getblk | getblkFound | getblkTake | getblkAvail | getblkOldest =>
    exact Or.inr (Or.inr (GetblkRet.done_or_read hx hk.1))
  | getblkReuse bp d b k =>
    rcases List.mem_cons.mp hx with rfl | hx
    · exact Or.inl List.mem_cons_self
    · exact Or.inr (Or.inr (GetblkRet.done_or_read hx hk.1))
  | bread | breadaRead => exact Or.inl hx
  | readahead d b r rbp =>
    -- read-ahead with a first block in hand: `bread` of it has been started
    obtain ⟨y, rfl⟩ : ∃ y, rbp = some y := by
      cases rbp with
      | none => cases hx
      | some y => exact ⟨y, rfl⟩
    obtain rfl : x = y := by simpa [Pc.hand] using hx
    exact Or.inr (Or.inr hk.2.2)
  | readaheadRead ra d b rbp =>
    rcases List.mem_cons.mp hx with rfl | hx
    · exact Or.inl List.mem_cons_self
    · obtain ⟨y, rfl⟩ : ∃ y, rbp = some y := by
        cases rbp with
        | none => cases hx
        | some y => exact ⟨y, rfl⟩
      obtain rfl : x = y := by simpa using hx
      exact Or.inr (Or.inr hk.2.2)
  | bwrite bp k | brelse bp k =>
    rcases List.mem_cons.mp hx with rfl | hx
    · exact Or.inl List.mem_cons_self
    · exact Or.inr (Or.inr (BwriteRet.done_or_read hx hk))
  | iowait bp k =>
    rcases List.mem_cons.mp hx with rfl | hx
    -- `iowait` itself: a read has been started, a write is what it awaits
    · cases k with
      | read d b => exact Or.inr (Or.inr hk.2.2)
      | write k => exact Or.inr (Or.inl rfl)
    · cases k with
      | read d b => cases hx
      | write k => exact Or.inr (Or.inr (BwriteRet.done_or_read hx hk))

/-! ## Where a process stands, and what is pending -/

/-- The process neither writes a buffer nor waits for a write. -/
def Pc.Plain (k : Pc) : Prop := ∀ x, ¬k.writes x ∧ ¬k.awaits x

theorem Pc.Parked.not_writes {k : Pc} (h : k.Parked) (x : Ptr) : ¬k.writes x := by
  cases k <;> first | exact not_false | exact absurd h not_false

variable {pc : π → Pc} {p : π} {k : Pc}

/-- Whether some process is at such a place, when one of them goes on. -/
theorem exists_update_iff [DecidableEq π] (P : Pc → Prop) (h : P k ↔ P (pc p)) :
    (∃ r, P (update pc p k r)) ↔ ∃ r, P (pc r) := by
  refine exists_congr fun r => ?_
  by_cases hr : r = p
  · rw [hr, update_self]
    exact h
  · rw [update_of_ne hr]

/-- Whether a buffer is pending depends on four flags and on who writes it. -/
theorem pending_congr {pc' : π → Pc}
    (hfl : (s'.b_flags x).b_delwri = (s.b_flags x).b_delwri ∧
      (s'.b_flags x).b_done = (s.b_flags x).b_done ∧
      (s'.b_flags x).b_read = (s.b_flags x).b_read ∧
      ((s.b_flags x).b_done = false → (s'.b_flags x).b_async = (s.b_flags x).b_async))
    (hwrites : (∃ r, (pc' r).writes x) ↔ ∃ r, (pc r).writes x)
    (hawaits : (∃ r, (pc' r).awaits x) ↔ ∃ r, (pc r).awaits x) :
    pending s' pc' x ↔ pending s pc x := by
  unfold pending
  rw [hfl.1, hfl.2.1, hfl.2.2.1, hwrites, hawaits]
  by_cases hdone : (s.b_flags x).b_done = false
  · rw [hfl.2.2.2 hdone]
  · simp [hdone]

theorem Pc.awaits.mem_hand {k : Pc} (h : k.awaits x) : x ∈ k.hand := by
  cases k with
  | iowait bp k =>
    cases k with
    | read d b => exact absurd h not_false
    | write k =>
      obtain rfl : bp = x := h
      exact List.mem_cons_self
  | _ => exact absurd h not_false

theorem Pc.plain_user : Pc.user.Plain := fun _ => ⟨not_false, not_false⟩

/-- A process that is not concerned with writes goes on to such a place. -/
theorem pending_plain [DecidableEq π] (hold : (pc p).Plain) (hnew : k.Plain)
    (hfl : (s'.b_flags x).b_delwri = (s.b_flags x).b_delwri ∧
      (s'.b_flags x).b_done = (s.b_flags x).b_done ∧
      (s'.b_flags x).b_read = (s.b_flags x).b_read ∧
      ((s.b_flags x).b_done = false → (s'.b_flags x).b_async = (s.b_flags x).b_async)) :
    pending s' (update pc p k) x ↔ pending s pc x :=
  pending_congr hfl (exists_update_iff _ (iff_of_false (hnew x).1 (hold x).1))
    (exists_update_iff _ (iff_of_false (hnew x).2 (hold x).2))

namespace BioSys

variable {used : Dev → Dev → Prop} {last : Dev → Dev → β} {dirty : Ptr → Bool}

/-- The contents of the blocks are where they should be, the changed buffers are held, and readers
have the buffers that they want. -/
structure Coh (used : Dev → Dev → Prop) (s : BioSys π β) (last : Dev → Dev → β)
    (dirty : Ptr → Bool) : Prop where
  coherent : Coherent used s.toBio last dirty (pending s.toBio s.pc)
  held : ∀ x, dirty x = true → ∃ p, x ∈ s.held p
  reads : ∀ p, (s.pc p).Reads s.toBio

/-- What is known of the buffers where the process stands. -/
theorem Coh.reads_of {s : BioSys π β} (hc : s.Coh used last dirty) (hpc : s.pc p = k) :
    k.Reads s.toBio :=
  hpc ▸ hc.reads p

variable {s s' : BioSys π β} {b : Bio π β} {ring : Ptr → List Ptr} {la q : List Ptr}
  {holder : Ptr → Holder π}

section

variable (h : InvAt True used s.toBio s.pc s.held s.cur ring la q holder)

include h

theorem no_error (hbuf : bp.IsBuf) : (s.b_flags bp).b_error = false := by
  by_contra he
  rw [Bool.not_eq_false] at he
  exact ((h.cached.bufs bp).error hbuf he).2 trivial

theorem active_iff : s.d_active = 0 ↔ s.d_actf = .null :=
  h.active.trans h.cached.queue.first_eq_null_iff.symm

/-- The first request is in the queue. -/
theorem first_mem (hact : s.d_active ≠ 0) : s.d_actf ∈ q := by
  cases q with
  | nil => exact absurd (h.active.mpr rfl) hact
  | cons y l =>
    rw [h.cached.queue.first_cons]
    exact List.mem_cons_self

theorem first_ne (hq : bp ∉ q) : s.d_active ≠ 0 → s.d_actf ≠ bp := by
  rintro hact rfl
  exact hq (first_mem h hact)

/-- Another process has other buffers. -/
theorem hand_ne {r : π} (hr : r ≠ p) (hbp : holder bp = .proc p) (hx : x ∈ (s.pc r).hand) :
    x ≠ bp := by
  rintro rfl
  have hown := ((h.procs r).owns.own x).mpr (Or.inr hx)
  rw [hbp] at hown
  exact hr (by simpa using hown.symm)

/-- Who holds a buffer is not changing it while it is in hand. -/
theorem clean_of_hand (hc : s.Coh used last dirty) (hx : x ∈ (s.pc p).hand) : dirty x = false := by
  by_contra hd
  rw [Bool.not_eq_false] at hd
  obtain ⟨r, hr⟩ := hc.held x hd
  have hown := ((h.procs r).owns.own x).mpr (Or.inl hr)
  have howns := (h.procs p).owns
  have hrp : r = p := by
    have hp := (howns.own x).mpr (Or.inr hx)
    rw [hown] at hp
    simpa using hp
  subst hrp
  exact (List.disjoint_of_nodup_append howns.nodup) hx hr

/-- No other process has a buffer of `p`, so what happens to it does not matter to the others. -/
theorem keeps_other (hbp : holder bp = .proc p)
    (hkeep : ∀ x : Ptr, x.IsBuf → x ≠ bp → Keeps s.toBio b x) :
    ∀ r, r ≠ p → ∀ x ∈ (s.pc r).hand, Keeps s.toBio b x := by
  intro r hr x hx
  refine hkeep x ?_ (hand_ne h hr hbp hx)
  refine h.cached.isBuf_of_holder ?_
  rw [((h.procs r).owns.own x).mpr (Or.inr hx)]
  simp

/-- No two buffers have the same block of a device. -/
theorem unique_key (hpos : (s.b_dev bp).slt 0 = false) (hbuf : bp.IsBuf) (hx : x.IsBuf)
    (hdev : s.b_dev x = s.b_dev bp) (hblk : s.b_blkno x = s.b_blkno bp) : x = bp := by
  refine h.cached.unique x bp hx hbuf ⟨?_, fun _ => trivial⟩ hdev hblk
  rw [hdev]
  exact hpos

end

variable [DecidableEq π]

/-- A process outside the routines is at no such place. -/
theorem exists_update_user (P : Pc → Prop) (h : P .user ↔ P (s.pc p)) :
    (∃ r, P (update s.pc p .user r)) ↔ ∃ r, P (s.pc r) :=
  exists_update_iff P h

/-- A piece of code by which `p` comes to `k`. -/
theorem Coh.run (hc : s.Coh used last dirty)
    (hb : Coherent used s'.toBio last dirty (pending s'.toBio (update s.pc p k)))
    (hother : ∀ r, r ≠ p → ∀ x ∈ (s.pc r).hand, Keeps s.toBio s'.toBio x)
    (hparked : ∀ r, r ≠ p → (s.pc r).Parked) (hk : k.Reads s'.toBio)
    (hpc : s'.pc = update s.pc p k) (hheld : ∀ r x, x ∈ s.held r → x ∈ s'.held r) :
    s'.Coh used last dirty := by
  refine ⟨?_, fun x hx => ?_, fun r => ?_⟩
  · rw [hpc]
    exact hb
  · obtain ⟨r, hr⟩ := hc.held x hx
    exact ⟨r, hheld r x hr⟩
  · rw [hpc]
    by_cases hr : r = p
    · rw [hr, update_self]
      exact hk
    · rw [update_of_ne hr]
      refine (hc.reads r).keeps (hother r hr) fun y k' hk' => ?_
      have hpark := hparked r hr
      rw [hk'] at hpark
      exact hpark.elim

/-- The pending buffers are the same wherever `p` goes, as long as it has nothing to do with
writes. -/
theorem coherent_plain {b : Bio π β} (hk : k.Plain)
    (hb : Coherent used b last dirty (pending b (update s.pc p .user))) :
    Coherent used b last dirty (pending b (update s.pc p k)) := by
  refine hb.congr ⟨rfl, rfl⟩ ⟨rfl, rfl⟩ ⟨rfl, rfl⟩ (fun _ => ⟨rfl, rfl, rfl⟩) fun x _ => ?_
  have hold : (update s.pc p .user p).Plain := by
    rw [update_self]
    exact Pc.plain_user
  have hiff : pending b (update (update s.pc p .user) p k) x ↔
      pending b (update s.pc p .user) x :=
    pending_plain hold hk ⟨rfl, rfl, rfl, fun _ => rfl⟩
  rwa [update_idem] at hiff

section

variable (h : InvAt True used s.toBio s.pc s.held s.cur ring la q holder)
  (hcur : s.cur = none ∨ s.cur = some p) (hc : s.Coh used last dirty)

include h hcur

omit [DecidableEq π] in
theorem others_parked : ∀ r, r ≠ p → (s.pc r).Parked := by
  intro r hr
  refine h.parked r ?_
  rcases hcur with hcur | hcur <;> rw [hcur]
  · simp
  · simpa using hr.symm

include hc

/-- The process goes on to `k`. -/
theorem coh_comeTo (hb : Coherent used b last dirty (pending b (update s.pc p k)))
    (hother : ∀ r, r ≠ p → ∀ x ∈ (s.pc r).hand, Keeps s.toBio b x) (hk : k.Reads b) :
    (goto p k { s with toBio := b }).Coh used last dirty :=
  Coh.run hc (p := p) (k := k) hb hother (others_parked h hcur) hk rfl fun _ _ hx => hx

/-- The process goes on to a place that has nothing to do with writes. -/
theorem coh_goto (hb : Coherent used b last dirty (pending b (update s.pc p .user)))
    (hother : ∀ r, r ≠ p → ∀ x ∈ (s.pc r).hand, Keeps s.toBio b x) (hplain : k.Plain)
    (hk : k.Reads b) : (goto p k { s with toBio := b }).Coh used last dirty :=
  coh_comeTo h hcur hc (coherent_plain hplain hb) hother hk

/-- The process goes to sleep before `k`. -/
theorem coh_sleep {chan : Ptr} (hb : Coherent used b last dirty (pending b (update s.pc p k)))
    (hother : ∀ r, r ≠ p → ∀ x ∈ (s.pc r).hand, Keeps s.toBio b x) (hk : k.Reads b) :
    (sleep p chan k { s with toBio := b }).Coh used last dirty := by
  refine Coh.run hc (p := p) (k := k) ?_ hother (others_parked h hcur) ?_ rfl fun _ _ hx => hx
  · exact hb.congr ⟨rfl, rfl⟩ ⟨rfl, rfl⟩ ⟨rfl, rfl⟩ (fun _ => ⟨rfl, rfl, rfl⟩) fun _ _ => Iff.rfl
  · exact hk.keeps (fun _ _ => Keeps.of_eq rfl rfl ⟨rfl, rfl⟩)
      fun _ _ _ => Keeps.of_eq rfl rfl ⟨rfl, rfl⟩

/-- The process leaves, and pending is what was pending. -/
theorem coh_leave (hb : Coherent used b last dirty (pending b (update s.pc p .user)))
    (hother : ∀ r, r ≠ p → ∀ x ∈ (s.pc r).hand, Keeps s.toBio b x) :
    (leave p { s with toBio := b }).Coh used last dirty :=
  Coh.run hc (p := p) (k := .user) hb hother (others_parked h hcur) trivial rfl
    fun _ _ hx => hx

/-- The process leaves with a buffer, and pending is what was pending. -/
theorem coh_leaveWith (hb : Coherent used b last dirty (pending b (update s.pc p .user)))
    (hother : ∀ r, r ≠ p → ∀ x ∈ (s.pc r).hand, Keeps s.toBio b x) :
    (leaveWith p bp { s with toBio := b }).Coh used last dirty :=
  Coh.run hc (p := p) (k := .user) hb hother (others_parked h hcur) trivial rfl
    fun _ _ hx => mem_held_leaveWith (s := { s with toBio := b }) hx

/-- `getblk` returns, and the routine behind it knows its buffers. -/
theorem coh_getblkReturn {k : GetblkRet}
    (hb : Coherent used b last dirty (pending b (update s.pc p .user)))
    (hother : ∀ r, r ≠ p → ∀ x ∈ (s.pc r).hand, Keeps s.toBio b x) (hk : k.Reads b)
    (hfor : k.For (b.b_dev bp) (b.b_blkno bp)) :
    (getblkReturn p bp k { s with toBio := b }).Coh used last dirty := by
  cases k with
  | user => exact coh_leaveWith h hcur hc hb hother
  | bread dev blkno => exact coh_goto h hcur hc hb hother (fun _ => ⟨not_false, not_false⟩) hfor
  | breada dev blkno rablkno =>
    exact coh_goto h hcur hc hb hother (fun _ => ⟨not_false, not_false⟩) hfor
  | readahead dev blkno rbp =>
    refine coh_goto h hcur hc hb hother (fun _ => ⟨not_false, not_false⟩) ?_
    cases rbp <;> exact hk

/-- `bwrite` returns, and the routine behind it knows its buffers. -/
theorem coh_bwriteReturn {k : BwriteRet}
    (hb : Coherent used b last dirty (pending b (update s.pc p .user)))
    (hother : ∀ r, r ≠ p → ∀ x ∈ (s.pc r).hand, Keeps s.toBio b x) (hk : k.Reads b) :
    (bwriteReturn p k { s with toBio := b }).Coh used last dirty := by
  cases k with
  | user => exact coh_leave h hcur hc hb hother
  | getblk dev blkno k =>
    exact coh_goto h hcur hc hb hother (fun _ => ⟨not_false, not_false⟩) hk
  | bflush dev => exact coh_goto h hcur hc hb hother (fun _ => ⟨not_false, not_false⟩) trivial

/-- `breada` ends, and the buffer that it returns is the one that was got. -/
theorem coh_breadaReturn {rbp : Option Ptr}
    (hb : Coherent used b last dirty (pending b (update s.pc p .user)))
    (hother : ∀ r, r ≠ p → ∀ x ∈ (s.pc r).hand, Keeps s.toBio b x)
    (hrbp : ∀ bp, rbp = some bp → Got b bp dev blkno) :
    (breadaReturn p dev blkno rbp { s with toBio := b }).Coh used last dirty := by
  cases rbp with
  | none =>
    exact coh_goto h hcur hc hb hother (fun _ => ⟨not_false, not_false⟩) ⟨trivial, rfl, rfl⟩
  | some bp =>
    exact coh_goto h hcur hc hb hother (fun _ => ⟨not_false, not_false⟩) (hrbp bp rfl)

omit h hcur in
/-- A piece that only looks at the headers. -/
theorem coh_nothing (hplain : (s.pc p).Plain) :
    Coherent used s.toBio last dirty (pending s.toBio (update s.pc p .user)) :=
  hc.coherent.congr ⟨rfl, rfl⟩ ⟨rfl, rfl⟩ ⟨rfl, rfl⟩ (fun _ => ⟨rfl, rfl, rfl⟩) fun _ _ =>
    pending_plain hplain Pc.plain_user ⟨rfl, rfl, rfl, fun _ => rfl⟩

/-! ## Pieces -/

/-- `getblk` looks for the block; nothing changes. -/
theorem coh_getblk {k : GetblkRet} (hpc : s.pc p = .getblk dev blkno k)
    (hs : s.runPiece p = some s') : s'.Coh used last dirty := by
  have hb := coh_nothing hc (p := p) (hpc ▸ fun _ => ⟨not_false, not_false⟩)
  have hother : ∀ r, r ≠ p → ∀ x ∈ (s.pc r).hand, Keeps s.toBio s.toBio x :=
    fun _ _ x _ => Keeps.refl _ x
  have hreads := hc.reads_of hpc
  simp only [runPiece, hpc] at hs
  split at hs
  · obtain rfl := Option.some.inj hs
    exact coh_goto h hcur hc hb hother (fun _ => ⟨not_false, not_false⟩) hreads
  · obtain ⟨found, -, rfl⟩ := Option.map_eq_some_iff.mp hs
    cases found <;>
      exact coh_goto h hcur hc hb hother (fun _ => ⟨not_false, not_false⟩) hreads

omit h hcur in
/-- A flag is set that does not matter here. -/
theorem coh_wanted (y : Ptr) (hplain : (s.pc p).Plain) {k : Pc} (hk : k.Plain) :
    Coherent used (s.toBio.setFlags y fun fl => { fl with b_wanted := true }) last dirty
      (pending (s.toBio.setFlags y fun fl => { fl with b_wanted := true }) (update s.pc p k)) := by
  refine hc.coherent.setFlags _ (fun _ => ⟨rfl, rfl, rfl⟩) fun x _ => ?_
  refine pending_plain hplain hk ?_
  by_cases hx : x = y
  · rw [hx, Bio.setFlags_self]
    exact ⟨rfl, rfl, rfl, fun _ => rfl⟩
  · rw [Bio.setFlags_of_ne hx]
    exact ⟨rfl, rfl, rfl, fun _ => rfl⟩

omit h hcur hc [DecidableEq π] in
/-- `B_WANTED` concerns no contents. -/
theorem keeps_wanted (y x : Ptr) :
    Keeps s.toBio (s.toBio.setFlags y fun fl => { fl with b_wanted := true }) x := by
  refine Keeps.of_eq rfl rfl ?_
  by_cases hx : x = y
  · rw [hx, Bio.setFlags_self]
    exact ⟨rfl, rfl⟩
  · rw [Bio.setFlags_of_ne hx]
    exact ⟨rfl, rfl⟩

/-- `getblk` sleeps on a busy buffer, or goes on to take it. -/
theorem coh_getblkFound {k : GetblkRet} (hpc : s.pc p = .getblkFound bp dev blkno k)
    (hs : s.runPiece p = some s') : s'.Coh used last dirty := by
  have hplain : (s.pc p).Plain := hpc ▸ fun _ => ⟨not_false, not_false⟩
  have hreads : k.Reads s.toBio ∧ k.For dev blkno := hc.reads_of hpc
  obtain ⟨-, hdev, hblk⟩ := (hpc ▸ h.procs p).knows
  simp only [runPiece, hpc] at hs
  split at hs
  · obtain rfl := Option.some.inj hs
    refine coh_sleep h hcur hc (k := .getblk dev blkno k)
      (coh_wanted hc bp hplain fun _ => ⟨not_false, not_false⟩)
      (fun _ _ x _ => keeps_wanted bp x) ⟨?_, hreads.2⟩
    exact hreads.1.keeps fun x _ => keeps_wanted bp x
  · obtain rfl := Option.some.inj hs
    refine coh_goto h hcur hc (coh_nothing hc hplain) (fun _ _ x _ => Keeps.refl _ x)
      (fun _ => ⟨not_false, not_false⟩) ⟨hreads.1, ?_⟩
    rw [hdev, hblk]
    exact hreads.2

omit h hcur in
/-- `notavail`. -/
theorem coh_notavail (y : Ptr) (hplain : (s.pc p).Plain) :
    Coherent used (s.toBio.notavail y) last dirty
      (pending (s.toBio.notavail y) (update s.pc p .user)) := by
  refine hc.coherent.notavail fun x _ => pending_plain hplain Pc.plain_user ?_
  obtain ⟨hdone, hread, hdelwri, hasync⟩ := Bio.notavail_flags y x s.toBio
  exact ⟨hdelwri, hdone, hread, fun _ => hasync⟩

omit h hcur hc [DecidableEq π] in
theorem keeps_notavail (y x : Ptr) : Keeps s.toBio (s.toBio.notavail y) x := by
  obtain ⟨hdone, hread, -⟩ := Bio.notavail_flags y x s.toBio
  exact Keeps.of_eq rfl rfl ⟨hdone, hread⟩

/-- `getblk` takes the buffer that has the block. -/
theorem coh_getblkTake {k : GetblkRet} (hpc : s.pc p = .getblkTake bp k)
    (hs : s.runPiece p = some s') : s'.Coh used last dirty := by
  have hreads : k.Reads s.toBio ∧ k.For (s.b_dev bp) (s.b_blkno bp) := hc.reads_of hpc
  simp only [runPiece, hpc] at hs
  obtain rfl := Option.some.inj hs
  exact coh_getblkReturn h hcur hc
    (coh_notavail hc bp (hpc ▸ fun _ => ⟨not_false, not_false⟩))
    (fun _ _ x _ => keeps_notavail bp x) (hreads.1.keeps fun x _ => keeps_notavail bp x) hreads.2

/-- `getblk` sleeps for want of a buffer, or goes on to take one. -/
theorem coh_getblkAvail {k : GetblkRet} (hpc : s.pc p = .getblkAvail dev blkno k)
    (hs : s.runPiece p = some s') : s'.Coh used last dirty := by
  have hplain : (s.pc p).Plain := hpc ▸ fun _ => ⟨not_false, not_false⟩
  have hreads : k.Reads s.toBio ∧ k.For dev blkno := hc.reads_of hpc
  simp only [runPiece, hpc] at hs
  split at hs
  · obtain rfl := Option.some.inj hs
    refine coh_sleep h hcur hc (k := .getblk dev blkno k)
      (coh_wanted hc .bfreelist hplain fun _ => ⟨not_false, not_false⟩)
      (fun _ _ x _ => keeps_wanted .bfreelist x) ⟨?_, hreads.2⟩
    exact hreads.1.keeps fun x _ => keeps_wanted .bfreelist x
  · obtain rfl := Option.some.inj hs
    exact coh_goto h hcur hc (coh_nothing hc hplain) (fun _ _ x _ => Keeps.refl _ x)
      (fun _ => ⟨not_false, not_false⟩) hreads

/-- `getblk` takes the oldest available buffer. -/
theorem coh_getblkOldest {k : GetblkRet} (hpc : s.pc p = .getblkOldest dev blkno k)
    (hs : s.runPiece p = some s') : s'.Coh used last dirty := by
  have hreads : k.Reads s.toBio ∧ k.For dev blkno := hc.reads_of hpc
  simp only [runPiece, hpc] at hs
  obtain rfl := Option.some.inj hs
  refine coh_goto h hcur hc
    (coh_notavail hc _ (hpc ▸ fun _ => ⟨not_false, not_false⟩))
    (fun _ _ x _ => keeps_notavail _ x) (fun _ => ⟨not_false, not_false⟩) ⟨?_, hreads.2⟩
  exact hreads.1.keeps fun x _ => keeps_notavail _ x

omit hcur hc [DecidableEq π] in
/-- Nobody but `p` can be writing a buffer of `p`. -/
theorem nobody_writes (hplain : (s.pc p).Plain) (hbp : holder bp = .proc p) (r : π) :
    ¬(s.pc r).writes bp ∧ ¬(s.pc r).awaits bp := by
  by_cases hrp : r = p
  · rw [hrp]
    exact hplain bp
  · have hnot : bp ∉ (s.pc r).hand := fun hmem => hand_ne h hrp hbp hmem rfl
    cases hk : s.pc r with
    | bwrite x k =>
      rw [hk] at hnot
      refine ⟨?_, not_false⟩
      rintro rfl
      exact hnot List.mem_cons_self
    | iowait x k =>
      rw [hk] at hnot
      cases k with
      | write k =>
        refine ⟨not_false, ?_⟩
        rintro rfl
        exact hnot List.mem_cons_self
      | read _ _ => exact ⟨not_false, not_false⟩
    | _ => exact ⟨not_false, not_false⟩

omit hcur hc [DecidableEq π] in
/-- A buffer in hand that nobody is going to write is pending only with `B_DELWRI`. -/
theorem not_pending_of_quiet (hplain : (s.pc p).Plain) (hbp : holder bp = .proc p)
    (hasync : (s.b_flags bp).b_async = false) (hdelwri : (s.b_flags bp).b_delwri = false) :
    ¬pending s.toBio s.pc bp := by
  have hnone := nobody_writes h hplain hbp
  rintro (hd | ⟨r, hr⟩ | ⟨-, -, ha | ⟨r, hr⟩⟩)
  · rw [hdelwri] at hd
    cases hd
  · exact (hnone r).1 hr
  · rw [hasync] at ha
    cases ha
  · exact (hnone r).2 hr

omit h hcur hc [DecidableEq π] in
/-- `B_ASYNC` concerns no contents. -/
theorem keeps_async (y x : Ptr) :
    Keeps s.toBio (s.toBio.setFlags y fun fl => { fl with b_async := true }) x := by
  refine Keeps.of_eq rfl rfl ?_
  by_cases hx : x = y
  · rw [hx, Bio.setFlags_self]
    exact ⟨rfl, rfl⟩
  · rw [Bio.setFlags_of_ne hx]
    exact ⟨rfl, rfl⟩

omit h hcur hc in
/-- A delayed write is pending already, and stays so when the process is to do it. -/
theorem coh_delayed {b : Bio π β} (hb : Coherent used b last dirty (pending b s.pc))
    (hplain : (s.pc p).Plain) (hdelwri : (b.b_flags bp).b_delwri = true) {k : BwriteRet} :
    Coherent used (b.setFlags bp fun fl => { fl with b_async := true }) last dirty
      (pending (b.setFlags bp fun fl => { fl with b_async := true })
        (update s.pc p (.bwrite bp k))) := by
  refine hb.setFlags (fun fl => { fl with b_async := true }) (fun _ => ⟨rfl, rfl, rfl⟩)
    fun x _ => ?_
  by_cases hx : x = bp
  · rw [hx]
    refine iff_of_true (Or.inl ?_) (Or.inl hdelwri)
    rw [Bio.setFlags_self]
    exact hdelwri
  · refine pending_congr ?_ (exists_update_iff _ (iff_of_false (Ne.symm hx) (hplain x).1))
      (exists_update_iff _ (iff_of_false not_false (hplain x).2))
    rw [Bio.setFlags_of_ne hx]
    exact ⟨rfl, rfl, rfl, fun _ => rfl⟩

/-- `getblk` writes a delayed buffer out, or gives one with nothing to write to the block. -/
theorem coh_getblkReuse {k : GetblkRet} (hpc : s.pc p = .getblkReuse bp dev blkno k)
    (hs : s.runPiece p = some s') : s'.Coh used last dirty := by
  have hplain : (s.pc p).Plain := hpc ▸ fun _ => ⟨not_false, not_false⟩
  have hreads : k.Reads s.toBio ∧ k.For dev blkno := hc.reads_of hpc
  obtain ⟨ho, hfresh, -⟩ := hpc ▸ h.procs p
  have hbp := ho.holder_eq
  have hbuf := h.cached.isBuf_of_holder (b := bp) (by simp [hbp])
  simp only [runPiece, hpc] at hs
  split at hs
  · -- a delayed write is pending already, and stays so
    rename_i hdelwri
    obtain rfl := Option.some.inj hs
    refine coh_comeTo h hcur hc (coh_delayed hc.coherent hplain hdelwri)
      (fun _ _ x _ => keeps_async bp x) ⟨?_, hreads.2⟩
    exact hreads.1.keeps fun x _ => keeps_async bp x
  · rename_i hdelwri
    rw [Bool.not_eq_true] at hdelwri
    obtain ⟨dp, hdp, rfl⟩ := Option.map_eq_some_iff.mp hs
    have hnot := not_pending_of_quiet h hplain hbp (ho.calm bp (Or.inr List.mem_cons_self)) hdelwri
    have hq : bp ∉ q := ho.quiet bp (Or.inr List.mem_cons_self)
    have hflags : ∀ x, x ≠ bp → (s.toBio.assign bp dp dev blkno).b_flags x = s.b_flags x :=
      fun x hx => update_of_ne hx ..
    have hself : (s.toBio.assign bp dp dev blkno).b_flags bp = { b_busy := true } := update_self ..
    -- every other buffer keeps its block and its data
    have hkeep : ∀ x, x ≠ bp → Keeps s.toBio (s.toBio.assign bp dp dev blkno) x := by
      intro x hx
      refine Keeps.of_eq (update_of_ne hx ..) (update_of_ne hx ..) ?_
      rw [hflags x hx]
      exact ⟨rfl, rfl⟩
    -- `bp` stands for its new block now, with nothing in it yet
    refine coh_getblkReturn h hcur hc ?_ (keeps_other h hbp fun x _ hx => hkeep x hx) ?_ ?_
    · refine hc.coherent.assign hbuf hnot (first_ne h hq) fun x _ => ?_
      -- no write was pending on `bp`, and none is on its new block
      by_cases hx : x = bp
      · rw [hx]
        refine iff_of_false ?_ fun hne => hne.1 rfl
        have hnone := nobody_writes h hplain hbp
        have hwrites := exists_update_user (s := s) (p := p) (fun k => k.writes bp)
          (iff_of_false not_false (hplain bp).1)
        have hawaits := exists_update_user (s := s) (p := p) (fun k => k.awaits bp)
          (iff_of_false not_false (hplain bp).2)
        -- each way to be pending is excluded by the cleared flags or by `nobody_writes`
        rintro (hd | hw | ⟨-, -, ha | hw⟩)
        · rw [hself] at hd
          cases hd
        · obtain ⟨r, hr⟩ := hwrites.mp hw
          exact (hnone r).1 hr
        · rw [hself] at ha
          cases ha
        · obtain ⟨r, hr⟩ := hawaits.mp hw
          exact (hnone r).2 hr
      -- for the other buffers nothing has changed
      · have hiff : pending (s.toBio.assign bp dp dev blkno) (update s.pc p .user) x ↔
            pending s.toBio s.pc x := by
          refine pending_plain hplain Pc.plain_user ?_
          rw [hflags x hx]
          exact ⟨rfl, rfl, rfl, fun _ => rfl⟩
        rw [hiff]
        simp [hx]
    · refine hreads.1.keeps fun x hx => hkeep x ?_
      rintro rfl
      exact ho.notMem.2 hx
    · dsimp only [Bio.assign, Bio.setFlags]
      rw [update_self, update_self]
      exact hreads.2

omit hcur in
/-- A read is started. -/
theorem coh_startRead {f : BFlags → BFlags} (hapart : SectorsApart used) (hplain : (s.pc p).Plain)
    (hbp : holder bp = .proc p) (hq : bp ∉ q) (hasync : (s.b_flags bp).b_async = false)
    (hdone : (s.b_flags bp).b_done = false)
    (hf : (f (s.b_flags bp)).b_done = (s.b_flags bp).b_done ∧
      (f (s.b_flags bp)).b_delwri = (s.b_flags bp).b_delwri ∧ (f (s.b_flags bp)).b_read = true)
    (hs : (s.toBio.setFlags bp f).strategy bp = some b) :
    Coherent used b last dirty (pending b (update s.pc p .user)) ∧
      (∀ x, x ≠ bp → Keeps s.toBio b x) ∧
      (b.b_dev bp = s.b_dev bp ∧ b.b_blkno bp = s.b_blkno bp ∧ (b.b_flags bp).b_read = true) := by
  have hbuf := h.cached.isBuf_of_holder (b := bp) (by simp [hbp])
  -- a delayed write would be of valid contents
  have hdelwri : (s.b_flags bp).b_delwri = false := by
    by_contra hd
    rw [Bool.not_eq_false] at hd
    rw [hc.coherent.delwri bp hbuf hd] at hdone
    cases hdone
  have hnot := not_pending_of_quiet h hplain hbp hasync hdelwri
  have hnone := nobody_writes h hplain hbp
  obtain ⟨hfl, hdev, hblk, -, -⟩ := Bio.strategy_accepted hs hbuf.ne_null
    ((h.accepts trivial).accepts bp hbuf) (active_iff h)
  have hother : ∀ x, x ≠ bp → (s.toBio.setFlags bp f).b_flags x = s.b_flags x :=
    fun x hx => Bio.setFlags_of_ne hx ..
  have hself : ((s.toBio.setFlags bp f).b_flags bp) = f (s.b_flags bp) := Bio.setFlags_self ..
  have hwrites := exists_update_user (s := s) (p := p) (fun k => k.writes bp)
    (iff_of_false not_false (hplain bp).1)
  have hset : Coherent used (s.toBio.setFlags bp f) last dirty
      (pending (s.toBio.setFlags bp f) (update s.pc p .user)) := by
    -- nothing pending: no delayed write, no process in `bwrite`, and what is queued is a read
    have hnot' : ¬pending (s.toBio.setFlags bp f) (update s.pc p .user) bp := by
      rintro (hd | hw | ⟨-, hr, -⟩)
      · rw [hself, hf.2.1, hdelwri] at hd
        cases hd
      · obtain ⟨r, hr⟩ := hwrites.mp hw
        exact (hnone r).1 hr
      · rw [hself, hf.2.2] at hr
        cases hr
    refine hc.coherent.setFlags_quiet (first_ne h hq) ?_ ?_ (fun hp => absurd hp hnot)
      fun x _ hx => pending_plain hplain Pc.plain_user ?_
    · rintro (hd | hp)
      · exact Or.inl (hf.1.symm.trans hd)
      · exact absurd hp hnot'
    · rw [hf.2.1, hdelwri]
      exact Bool.noConfusion
    · rw [hother x hx]
      exact ⟨rfl, rfl, rfl, fun _ => rfl⟩
  refine ⟨hset.strategy hapart hs hbuf.ne_null ((h.accepts trivial).accepts bp hbuf)
    (active_iff h) ?_ fun x _ => ?_,
    fun x hx => Keeps.of_eq ?_ ?_ ?_, ?_, ?_, ?_⟩
  · intro hr
    rw [hself, hf.2.2] at hr
    cases hr
  · unfold pending
    rw [hfl]
  · rw [hdev]
    rfl
  · rw [hblk]
    rfl
  · rw [hfl, hother x hx]
    exact ⟨rfl, rfl⟩
  · rw [hdev]
    rfl
  · rw [hblk]
    rfl
  · rw [hfl, hself]
    exact hf.2.2

/-- `bread` starts the transfer, unless the block is in core. -/
theorem coh_bread (hapart : SectorsApart used) (hpc : s.pc p = .bread bp dev blkno)
    (hs : s.runPiece p = some s') : s'.Coh used last dirty := by
  have hplain : (s.pc p).Plain := hpc ▸ fun _ => ⟨not_false, not_false⟩
  have hreads : s.b_dev bp = dev ∧ s.b_blkno bp = blkno := hc.reads_of hpc
  obtain ⟨ho, -, -⟩ := hpc ▸ h.procs p
  have hbp := ho.holder_eq
  simp only [runPiece, hpc] at hs
  split at hs
  · obtain rfl := Option.some.inj hs
    exact coh_leaveWith h hcur hc (coh_nothing hc hplain) fun _ _ x _ => Keeps.refl _ x
  · rename_i hdone
    rw [Bool.not_eq_true] at hdone
    obtain ⟨b, hb, rfl⟩ := Option.map_eq_some_iff.mp hs
    obtain ⟨hcoh, hkeep, hdev, hblk, hread⟩ := coh_startRead h hc hapart hplain hbp
      (ho.quiet bp (Or.inr List.mem_cons_self)) (ho.calm bp (Or.inr List.mem_cons_self)) hdone
      ⟨rfl, rfl, rfl⟩ hb
    exact coh_goto h hcur hc hcoh (keeps_other h hbp fun x _ hx => hkeep x hx)
      (fun _ => ⟨not_false, not_false⟩) ⟨hdev.trans hreads.1, hblk.trans hreads.2, Or.inr hread⟩

/-- `breada` looks for the first block; nothing changes. -/
theorem coh_breada {rablkno : Dev} (hpc : s.pc p = .breada dev blkno rablkno)
    (hs : s.runPiece p = some s') : s'.Coh used last dirty := by
  have hb := coh_nothing hc (p := p) (hpc ▸ fun _ => ⟨not_false, not_false⟩)
  simp only [runPiece, hpc] at hs
  obtain ⟨found, -, rfl⟩ := Option.map_eq_some_iff.mp hs
  cases found with
  | none =>
    exact coh_goto h hcur hc hb (fun _ _ x _ => Keeps.refl _ x)
      (fun _ => ⟨not_false, not_false⟩) ⟨trivial, rfl, rfl⟩
  | some x =>
    exact coh_goto h hcur hc hb (fun _ _ x _ => Keeps.refl _ x)
      (fun _ => ⟨not_false, not_false⟩) trivial

/-- `breada` starts the transfer of the first block. -/
theorem coh_breadaRead {rablkno : Dev} (hapart : SectorsApart used)
    (hpc : s.pc p = .breadaRead bp dev blkno rablkno)
    (hs : s.runPiece p = some s') : s'.Coh used last dirty := by
  have hplain : (s.pc p).Plain := hpc ▸ fun _ => ⟨not_false, not_false⟩
  have hreads : s.b_dev bp = dev ∧ s.b_blkno bp = blkno := hc.reads_of hpc
  obtain ⟨ho, -, -⟩ := hpc ▸ h.procs p
  have hbp := ho.holder_eq
  simp only [runPiece, hpc] at hs
  split at hs
  · rename_i hdone
    obtain rfl := Option.some.inj hs
    exact coh_goto h hcur hc (coh_nothing hc hplain) (fun _ _ x _ => Keeps.refl _ x)
      (fun _ => ⟨not_false, not_false⟩) ⟨hreads.1, hreads.2, Or.inl hdone⟩
  · rename_i hdone
    rw [Bool.not_eq_true] at hdone
    obtain ⟨b, hb, rfl⟩ := Option.map_eq_some_iff.mp hs
    obtain ⟨hcoh, hkeep, hdev, hblk, hread⟩ := coh_startRead h hc hapart hplain hbp
      (ho.quiet bp (Or.inr List.mem_cons_self)) (ho.calm bp (Or.inr List.mem_cons_self)) hdone
      ⟨rfl, rfl, rfl⟩ hb
    exact coh_goto h hcur hc hcoh (keeps_other h hbp fun x _ hx => hkeep x hx)
      (fun _ => ⟨not_false, not_false⟩) ⟨hdev.trans hreads.1, hblk.trans hreads.2, Or.inr hread⟩

/-- `breada` looks for the block to be read ahead; nothing changes. -/
theorem coh_readahead {rablkno : Dev} {rbp : Option Ptr}
    (hpc : s.pc p = .readahead dev blkno rablkno rbp) (hs : s.runPiece p = some s') :
    s'.Coh used last dirty := by
  have hb := coh_nothing hc (p := p) (hpc ▸ fun _ => ⟨not_false, not_false⟩)
  have hgot : ∀ bp, rbp = some bp → Got s.toBio bp dev blkno := by
    rintro bp rfl
    exact hc.reads_of hpc
  have hreturn : (s.breadaReturn p dev blkno rbp).Coh used last dirty :=
    coh_breadaReturn h hcur hc hb (fun _ _ x _ => Keeps.refl _ x) hgot
  simp only [runPiece, hpc] at hs
  split at hs
  · obtain rfl := Option.some.inj hs
    exact hreturn
  · obtain ⟨found, -, rfl⟩ := Option.map_eq_some_iff.mp hs
    cases found with
    | none =>
      refine coh_goto h hcur hc hb (fun _ _ x _ => Keeps.refl _ x)
        (fun _ => ⟨not_false, not_false⟩) ⟨?_, trivial⟩
      cases rbp with
      | none => trivial
      | some bp => exact hgot bp rfl
    | some x => exact hreturn

omit hcur in
/-- `brelse`. -/
theorem coh_brelse (hplain : (s.pc p).Plain) (hbuf : bp.IsBuf)
    (hasync : (s.b_flags bp).b_async = false) :
    Coherent used (s.toBio.brelse bp) last dirty
      (pending (s.toBio.brelse bp) (update s.pc p .user)) := by
  refine hc.coherent.brelse hbuf.ne_bfreelist (no_error h hbuf) fun x hx => ?_
  obtain ⟨hdone, hread, hdelwri⟩ := Bio.brelse_flags hbuf.ne_bfreelist x s.toBio
  refine pending_plain hplain Pc.plain_user ⟨hdelwri, hdone, hread, fun _ => ?_⟩
  by_cases hxbp : x = bp
  · rw [hxbp, Bio.brelse_flags_self hbuf.ne_bfreelist, hasync]
  · rw [Bio.brelse_flags_of_ne hxbp hx.ne_bfreelist]

omit hcur hc [DecidableEq π] in
theorem keeps_brelse (hbuf : bp.IsBuf) (x : Ptr) : Keeps s.toBio (s.toBio.brelse bp) x := by
  obtain ⟨hdone, hread, -⟩ := Bio.brelse_flags hbuf.ne_bfreelist x s.toBio
  refine Keeps.of_eq ?_ ?_ ⟨hdone, hread⟩
  · rw [Bio.brelse_b_dev_eq (no_error h hbuf)]
  · rw [Bio.brelse_b_blkno]

/-- `breada` starts the transfer of the block to be read ahead, and does not wait for it. -/
theorem coh_readaheadRead {rbp : Option Ptr} (hapart : SectorsApart used)
    (hpc : s.pc p = .readaheadRead bp dev blkno rbp)
    (hs : s.runPiece p = some s') : s'.Coh used last dirty := by
  have hplain : (s.pc p).Plain := hpc ▸ fun _ => ⟨not_false, not_false⟩
  have hgot : ∀ bp, rbp = some bp → Got s.toBio bp dev blkno := by
    rintro bp rfl
    exact hc.reads_of hpc
  obtain ⟨ho, -, -⟩ := hpc ▸ h.procs p
  have hbp := ho.holder_eq
  have hbuf := h.cached.isBuf_of_holder (b := bp) (by simp [hbp])
  have hasync := ho.calm bp (Or.inr List.mem_cons_self)
  simp only [runPiece, hpc] at hs
  split at hs
  · obtain rfl := Option.some.inj hs
    exact coh_breadaReturn h hcur hc (coh_brelse h hc hplain hbuf hasync)
      (fun _ _ x _ => keeps_brelse h hbuf x) fun x hx => (hgot x hx).keeps (keeps_brelse h hbuf x)
  · rename_i hdone
    rw [Bool.not_eq_true] at hdone
    obtain ⟨b, hb, rfl⟩ := Option.map_eq_some_iff.mp hs
    obtain ⟨hcoh, hkeep, -⟩ := coh_startRead h hc hapart hplain hbp
      (ho.quiet bp (Or.inr List.mem_cons_self)) hasync hdone ⟨rfl, rfl, rfl⟩ hb
    refine coh_breadaReturn h hcur hc hcoh (keeps_other h hbp fun x _ hx => hkeep x hx)
      fun x hx => (hgot x hx).keeps (hkeep x ?_)
    rintro rfl
    exact ho.notMem.2 (by simp [hx])

omit hcur in
/-- A write is started, and the process comes to `k'`. -/
theorem coh_startWrite {k : BwriteRet} {k' : Pc} (hapart : SectorsApart used)
    (hpc : s.pc p = .bwrite bp k)
    (hk' : (s.b_flags bp).b_async = true ∧ k' = .user ∨ k' = .iowait bp (.write k))
    (hs : (s.toBio.setFlags bp fun fl =>
      { fl with b_read := false, b_done := false, b_error := false, b_delwri := false }).strategy
        bp = some b) :
    Coherent used b last dirty (pending b (update s.pc p k')) ∧
      ∀ x, x ≠ bp → Keeps s.toBio b x := by
  obtain ⟨ho, -, -⟩ := hpc ▸ h.procs p
  have hbp := ho.holder_eq
  have hbuf := h.cached.isBuf_of_holder (b := bp) (by simp [hbp])
  have hq := ho.quiet bp (Or.inr List.mem_cons_self)
  -- the flags' change as a variable: the goals below would repeat its body
  obtain ⟨f, hf⟩ : ∃ f : BFlags → BFlags, f = fun fl =>
      { fl with b_read := false, b_done := false, b_error := false, b_delwri := false } := ⟨_, rfl⟩
  rw [← hf] at hs
  obtain ⟨hfl, hdev, hblk, -, -⟩ := Bio.strategy_accepted hs hbuf.ne_null
    ((h.accepts trivial).accepts bp hbuf) (active_iff h)
  have hother : ∀ x, x ≠ bp → (s.toBio.setFlags bp f).b_flags x = s.b_flags x :=
    fun x hx => Bio.setFlags_of_ne hx ..
  have hself : ((s.toBio.setFlags bp f).b_flags bp) = f (s.b_flags bp) := Bio.setFlags_self ..
  -- the write is pending before (`bwrite` has it) and after (the drive has it)
  have hpend : pending s.toBio s.pc bp := Or.inr (Or.inl ⟨p, by rw [hpc]; rfl⟩)
  have hpend' : pending (s.toBio.setFlags bp f) (update s.pc p k') bp := by
    refine Or.inr (Or.inr ?_)
    rw [hself, hf]
    refine ⟨rfl, rfl, ?_⟩
    rcases hk' with ⟨hasync, -⟩ | rfl
    · exact Or.inl hasync
    · refine Or.inr ⟨p, ?_⟩
      rw [update_self]
      rfl
  -- first the flags change, then the request goes to the drive
  have hset : Coherent used (s.toBio.setFlags bp f) last dirty
      (pending (s.toBio.setFlags bp f) (update s.pc p k')) := by
    refine hc.coherent.setFlags_quiet (first_ne h hq) (fun _ => Or.inr hpend) ?_
      (fun _ => hpend') fun x _ hx => pending_congr ?_ (exists_update_iff _ ?_)
        (exists_update_iff _ ?_)
    · rw [hf]
      exact Bool.noConfusion
    · rw [hother x hx]
      exact ⟨rfl, rfl, rfl, fun _ => rfl⟩
    · rw [hpc]
      rcases hk' with ⟨-, rfl⟩ | rfl <;> exact iff_of_false not_false (Ne.symm hx)
    · rw [hpc]
      rcases hk' with ⟨-, rfl⟩ | rfl
      · exact Iff.rfl
      · exact iff_of_false (Ne.symm hx) not_false
  -- now the request: the buffer was valid, so what is sent is the last value
  refine ⟨hset.strategy hapart hs hbuf.ne_null ((h.accepts trivial).accepts bp hbuf)
    (active_iff h) ?_ fun x _ => ?_,
    fun x hx => Keeps.of_eq ?_ ?_ ?_⟩
  · intro _ hpos
    exact hc.coherent.valid bp hbuf hpos
      (clean_of_hand h hc (p := p) (by rw [hpc]; exact List.mem_cons_self)) (Or.inr hpend)
  · unfold pending
    rw [hfl]
  · rw [hdev]
    rfl
  · rw [hblk]
    rfl
  · rw [hfl, hother x hx]
    exact ⟨rfl, rfl⟩

/-- `bwrite` starts the transfer, and the block is what was last written. -/
theorem coh_bwrite {k : BwriteRet} (hapart : SectorsApart used) (hpc : s.pc p = .bwrite bp k)
    (hs : s.runPiece p = some s') : s'.Coh used last dirty := by
  have hreads : k.Reads s.toBio := hc.reads_of hpc
  obtain ⟨ho, -, -⟩ := hpc ▸ h.procs p
  have hbp := ho.holder_eq
  simp only [runPiece, hpc] at hs
  obtain ⟨b, hb, rfl⟩ := Option.map_eq_some_iff.mp hs
  have hne : ∀ x ∈ k.hand, x ≠ bp := by
    rintro x hx rfl
    exact ho.notMem.2 hx
  split
  · rename_i hasync
    obtain ⟨hcoh, hkeep⟩ := coh_startWrite h hc hapart hpc (Or.inl ⟨hasync, rfl⟩) hb
    exact coh_bwriteReturn h hcur hc hcoh (keeps_other h hbp fun x _ hx => hkeep x hx)
      (hreads.keeps fun x hx => hkeep x (hne x hx))
  · obtain ⟨hcoh, hkeep⟩ := coh_startWrite h hc hapart hpc (Or.inr rfl) hb
    exact coh_comeTo h hcur hc hcoh (keeps_other h hbp fun x _ hx => hkeep x hx)
      (hreads.keeps fun x hx => hkeep x (hne x hx))

/-- `iowait` sleeps until the transfer is done. -/
theorem coh_iowait {k : IowaitRet} (hpc : s.pc p = .iowait bp k) (hs : s.runPiece p = some s') :
    s'.Coh used last dirty := by
  have hreads : k.Reads s.toBio bp := hc.reads_of hpc
  simp only [runPiece, hpc] at hs
  split at hs
  · rename_i hdone
    cases k with
    | read dev blkno =>
      obtain rfl := Option.some.inj hs
      exact coh_leaveWith h hcur hc (coh_nothing hc (hpc ▸ fun _ => ⟨not_false, not_false⟩))
        fun _ _ x _ => Keeps.refl _ x
    | write k =>
      -- what is done is not pending, whoever waits for it
      obtain rfl := Option.some.inj hs
      refine coh_goto h hcur hc ?_ (fun _ _ x _ => Keeps.refl _ x)
        (fun _ => ⟨not_false, not_false⟩) hreads
      refine hc.coherent.congr ⟨rfl, rfl⟩ ⟨rfl, rfl⟩ ⟨rfl, rfl⟩ (fun _ => ⟨rfl, rfl, rfl⟩)
        fun x _ => ?_
      have hwrites := exists_update_user (s := s) (p := p) (fun k => k.writes x)
        (by rw [hpc]; exact Iff.rfl)
      by_cases hx : x = bp
      · unfold pending
        rw [hwrites, hx, hdone]
        simp
      · refine pending_congr ⟨rfl, rfl, rfl, fun _ => rfl⟩ hwrites (exists_update_iff _ ?_)
        rw [hpc]
        exact iff_of_false not_false (Ne.symm hx)
  · obtain rfl := Option.some.inj hs
    refine coh_sleep h hcur hc ?_ (fun _ _ x _ => Keeps.refl _ x) hreads
    rw [← hpc, update_eq_self]
    exact hc.coherent

/-- A routine ends by `brelse`. -/
theorem coh_brelse_piece {k : BwriteRet} (hpc : s.pc p = .brelse bp k)
    (hs : s.runPiece p = some s') : s'.Coh used last dirty := by
  have hreads : k.Reads s.toBio := hc.reads_of hpc
  obtain ⟨ho, -, -⟩ := hpc ▸ h.procs p
  have hbuf := h.cached.isBuf_of_holder (b := bp) (by simp [ho.holder_eq])
  simp only [runPiece, hpc] at hs
  obtain rfl := Option.some.inj hs
  exact coh_bwriteReturn h hcur hc
    (coh_brelse h hc (hpc ▸ fun _ => ⟨not_false, not_false⟩) hbuf
      (ho.calm bp (Or.inr List.mem_cons_self)))
    (fun _ _ x _ => keeps_brelse h hbuf x) (hreads.keeps fun x _ => keeps_brelse h hbuf x)

/-- `bflush` starts the transfer of a delayed buffer. -/
theorem coh_bflush (hpc : s.pc p = .bflush dev) (hs : s.runPiece p = some s') :
    s'.Coh used last dirty := by
  have hplain : (s.pc p).Plain := hpc ▸ fun _ => ⟨not_false, not_false⟩
  simp only [runPiece, hpc] at hs
  obtain ⟨found, hfound, rfl⟩ := Option.map_eq_some_iff.mp hs
  cases found with
  | none =>
    exact coh_leave h hcur hc (coh_nothing hc hplain) fun _ _ x _ => Keeps.refl _ x
  | some bp =>
    have hdelwri : (s.b_flags bp).b_delwri = true := by
      rw [h.cached.avail.ringFind_eq h.cached.length_avail_le, Option.some.injEq] at hfound
      have hmatch := List.find?_some hfound
      rw [decide_eq_true_eq] at hmatch
      exact hmatch.1
    dsimp only
    rw [Bio.setFlags_notavail]
    have hb : Coherent used (s.toBio.notavail bp) last dirty
        (pending (s.toBio.notavail bp) s.pc) := by
      refine hc.coherent.notavail fun x _ => pending_congr ?_ Iff.rfl Iff.rfl
      obtain ⟨hdone, hread, hdel, hasync⟩ := Bio.notavail_flags bp x s.toBio
      exact ⟨hdel, hdone, hread, fun _ => hasync⟩
    refine coh_comeTo h hcur hc (coh_delayed hb hplain ?_) (fun _ _ x _ => ?_) trivial
    · rw [(Bio.notavail_flags bp bp s.toBio).2.2.1]
      exact hdelwri
    · exact (keeps_notavail bp x).trans
        (keeps_async (s := { s with toBio := s.toBio.notavail bp }) bp x)

/-- A piece of code keeps the contents where they should be. -/
theorem coh_runPiece (hapart : SectorsApart used) (hs : s.runPiece p = some s') :
    s'.Coh used last dirty := by
  generalize hpc : s.pc p = k
  cases k with
  | user => simp [runPiece, hpc] at hs
  | getblk dev blkno k => exact coh_getblk h hcur hc hpc hs
  | getblkFound bp dev blkno k => exact coh_getblkFound h hcur hc hpc hs
  | getblkTake bp k => exact coh_getblkTake h hcur hc hpc hs
  | getblkAvail dev blkno k => exact coh_getblkAvail h hcur hc hpc hs
  | getblkOldest dev blkno k => exact coh_getblkOldest h hcur hc hpc hs
  | getblkReuse bp dev blkno k => exact coh_getblkReuse h hcur hc hpc hs
  | bread bp dev blkno => exact coh_bread h hcur hc hapart hpc hs
  | breada dev blkno rablkno => exact coh_breada h hcur hc hpc hs
  | breadaRead bp dev blkno rablkno => exact coh_breadaRead h hcur hc hapart hpc hs
  | readahead dev blkno rablkno rbp => exact coh_readahead h hcur hc hpc hs
  | readaheadRead rabp dev blkno rbp => exact coh_readaheadRead h hcur hc hapart hpc hs
  | bwrite bp k => exact coh_bwrite h hcur hc hapart hpc hs
  | iowait bp k => exact coh_iowait h hcur hc hpc hs
  | brelse bp k => exact coh_brelse_piece h hcur hc hpc hs
  | bflush dev => exact coh_bflush h hcur hc hpc hs

end

/-! ## Interrupts -/

section

variable (h : InvAt True used s.toBio s.pc s.held s.cur ring la q holder)
  (hc : s.Coh used last dirty)

include h hc

omit [DecidableEq π]

/-- A queued buffer is held by nobody, so nobody changes it. -/
theorem queued_clean (hx : x ∈ q) : dirty x = false := by
  by_contra hd
  rw [Bool.not_eq_false] at hd
  obtain ⟨r, hr⟩ := hc.held x hd
  exact (h.procs r).owns.quiet x (Or.inl hr) hx

/-- A queued buffer that is not to be read is to be written. -/
theorem queued_pending (hx : x ∈ q) (hread : (s.b_flags x).b_read = false) :
    pending s.toBio s.pc x := by
  obtain ⟨hbuf, hbusy, hdone, hasync⟩ := (h.cached.bufs x).queue hx
  refine Or.inr (Or.inr ⟨hdone, hread, ?_⟩)
  cases hholder : holder x with
  | avail =>
    have hfree := (h.cached.bufs x).holder.mp hholder hbuf
    rw [hbusy] at hfree
    cases hfree
  | io => exact Or.inl (hasync.mpr hholder)
  | proc r =>
    have howns := (h.procs r).owns
    have hhand : x ∈ (s.pc r).hand :=
      ((howns.own x).mp hholder).resolve_left fun hheld => howns.quiet x (Or.inl hheld) hx
    rcases Pc.hand_cases hhand (hc.reads r) with hquiet | hawait | hd | hr
    · exact absurd hx (howns.quiet x (Or.inr hquiet))
    · exact Or.inr ⟨r, hawait⟩
    · rw [hdone] at hd
      cases hd
    · rw [hread] at hr
      cases hr

/-- A queued buffer that is to be read is not to be written. -/
theorem queued_not_pending (hx : x ∈ q) (hread : (s.b_flags x).b_read = true) :
    ¬pending s.toBio s.pc x := by
  obtain ⟨hbuf, -, hdone, -⟩ := (h.cached.bufs x).queue hx
  rintro (hd | ⟨r, hr⟩ | ⟨-, hr, -⟩)
  · rw [hc.coherent.delwri x hbuf hd] at hdone
    cases hdone
  · cases hk : s.pc r with
    | bwrite y k =>
      rw [hk] at hr
      obtain rfl : y = x := hr
      refine (h.procs r).owns.quiet y (Or.inr ?_) hx
      rw [hk]
      exact List.mem_cons_self
    | _ =>
      rw [hk] at hr
      exact hr.elim
  · rw [hread] at hr
    cases hr

/-- The interrupt of the disk. -/
theorem coh_rkintr (hapart : SectorsApart used) :
    Coh used { s with toBio := s.rkintr } last dirty := by
  -- an interrupt without a request does nothing
  by_cases hact : s.d_active = 0
  · have hnothing : s.rkintr = s.toBio := by rw [Bio.rkintr, if_pos hact]
    rw [hnothing]
    exact hc
  · obtain ⟨bp, hbp⟩ : ∃ bp, s.d_actf = bp := ⟨_, rfl⟩
    -- the finished request is the first of the queue
    have hmem : bp ∈ q := hbp ▸ first_mem h hact
    obtain ⟨l, hl⟩ : ∃ l, q = bp :: l := by
      cases q with
      | nil => cases hmem
      | cons y l =>
        have hy := h.cached.queue.first_cons
        rw [hbp] at hy
        exact ⟨l, by rw [hy]⟩
    have hbuf := ((h.cached.bufs bp).queue hmem).1
    have herror := no_error h hbuf
    obtain ⟨hdev, hblk, hflags, hdone, -⟩ := Bio.rkintr_spec hact hbp hbuf herror
    -- each buffer keeps its block; the finished one is done
    have hkeep : ∀ x : Ptr, x.IsBuf → Keeps s.toBio s.rkintr x := by
      intro x hx
      by_cases hxbp : x = bp
      · subst hxbp
        exact ⟨by rw [hdev], by rw [hblk], fun _ => Or.inl hdone⟩
      · refine Keeps.of_eq (by rw [hdev]) (by rw [hblk]) ?_
        rw [hflags x hx hxbp]
        exact ⟨rfl, rfl⟩
    have hassigned := h.accepts trivial
    have hkey : ∀ y ∈ q, used (s.b_dev y) (s.b_blkno y) := fun y hy =>
      (hassigned.accepts y ((h.cached.bufs y).queue hy).1 (hassigned.nonneg y hy)).2
    refine ⟨?_, hc.held,
      fun r => (hc.reads r).keeps (fun x hx => hkeep x ?_) fun x k hk => hkeep x ?_⟩
    · refine hc.coherent.rkintr hapart hact hbp hbuf herror (hkey bp hmem)
        (fun x hx hpos hd hb => unique_key h hpos hbuf hx hd hb) (queued_clean h hc hmem)
        (queued_not_pending h hc hmem) (queued_pending h hc hmem) (fun hnull => ?_)
        fun x hx hxbp => pending_congr ?_ Iff.rfl Iff.rfl
      -- the next request, if there is one, is valid as well
      · have hqueue := h.cached.queue
        rw [hl] at hqueue
        obtain ⟨y, l', rfl⟩ := List.exists_cons_of_ne_nil
          (mt hqueue.pop.first_eq_null_iff.mpr hnull)
        have hy : s.av_forw bp = y := hqueue.pop.first_cons
        have hyq : y ∈ q := by
          rw [hl]
          simp
        rw [hy]
        refine ⟨((h.cached.bufs y).queue hyq).1, ?_, queued_clean h hc hyq,
          hkey y hyq, queued_pending h hc hyq⟩
        -- a queue has each buffer once
        rintro rfl
        have hnodup := (List.nodup_cons.mp hqueue.nodup).2
        exact (List.nodup_cons.mp hnodup).1 List.mem_cons_self
      · rw [hflags x hx hxbp]
        exact ⟨rfl, rfl, rfl, fun _ => rfl⟩
    -- what a process holds is a buffer
    · refine h.cached.isBuf_of_holder ?_
      rw [((h.procs r).owns.own x).mpr (Or.inr hx)]
      simp
    -- what it waits on is one too
    · have hknows := (h.procs r).knows
      rw [hk] at hknows
      exact ((h.cached.bufs x).avail.mp hknows).1

end

/-! ## Calls -/

section

variable (h : InvAt True used s.toBio s.pc s.held s.cur ring la q holder) (hcur : s.cur = none)
  (hc : s.Coh used last dirty)

include h hcur hc

/-- A call that releases nothing. -/
theorem coh_entering {c : Call} (hpc : s.pc p = .user) (hrel : c.releases = none) :
    (enter p c s).Coh used last dirty := by
  have hb := coh_nothing hc (p := p) (hpc ▸ fun _ => ⟨not_false, not_false⟩)
  cases c with
  | getblk dev blkno =>
    exact coh_goto h (Or.inl hcur) hc hb (fun _ _ x _ => Keeps.refl _ x)
      (fun _ => ⟨not_false, not_false⟩) ⟨trivial, trivial⟩
  | bread dev blkno =>
    exact coh_goto h (Or.inl hcur) hc hb (fun _ _ x _ => Keeps.refl _ x)
      (fun _ => ⟨not_false, not_false⟩) ⟨trivial, rfl, rfl⟩
  | breada dev blkno rablkno =>
    exact coh_goto h (Or.inl hcur) hc hb (fun _ _ x _ => Keeps.refl _ x)
      (fun _ => ⟨not_false, not_false⟩) trivial
  | bflush dev =>
    exact coh_goto h (Or.inl hcur) hc hb (fun _ _ x _ => Keeps.refl _ x)
      (fun _ => ⟨not_false, not_false⟩) trivial
  | _ => cases hrel

/-- The new state when `p` gives up `bp` and comes to `k`. -/
theorem coh_giveUp {last' : Dev → Dev → β} {k : Pc} {c : Option π}
    (hb : Coherent used b last' (update dirty bp false) (pending b (update s.pc p k)))
    (hother : ∀ r, r ≠ p → ∀ x ∈ (s.pc r).hand, Keeps s.toBio b x) (hk : k.Reads b) :
    Coh used
      { toBio := b, pc := update s.pc p k,
        held := update s.held p ((s.held p).erase bp), cur := c }
      last' (update dirty bp false) := by
  refine ⟨hb, fun x hx => ?_, fun r => ?_⟩
  · have hxbp : x ≠ bp := by
      rintro rfl
      rw [update_self] at hx
      cases hx
    rw [update_of_ne hxbp] at hx
    obtain ⟨r, hr⟩ := hc.held x hx
    refine ⟨r, ?_⟩
    dsimp only
    by_cases hrp : r = p
    · subst hrp
      rw [update_self]
      exact (List.mem_erase_of_ne hxbp).mpr hr
    · rw [update_of_ne hrp]
      exact hr
  · dsimp only
    by_cases hrp : r = p
    · rw [hrp, update_self]
      exact hk
    · rw [update_of_ne hrp]
      refine (hc.reads r).keeps (hother r hrp) fun y k' hk' => ?_
      -- no other process is between the look-up and the taking of a buffer
      have hpark := others_parked h (Or.inl hcur) (p := p) r hrp
      rw [hk'] at hpark
      exact hpark.elim

/-- What a release with a write makes of the latest contents. -/
def record (s : Bio π β) (last : Dev → Dev → β) (bp : Ptr) : Dev → Dev → β :=
  update last (s.b_dev bp) (update (last (s.b_dev bp)) (s.b_blkno bp) (s.data bp))

/-- A call that releases `bp` with a write. -/
theorem coh_writing {c : Call} (hpc : s.pc p = .user) (hbp : bp ∈ s.held p)
    (hcall : c = .bwrite bp ∨ c = .bawrite bp ∨ c = .bdwrite bp) :
    (enter p c { s with held := update s.held p ((s.held p).erase bp) }).Coh used
      (record s.toBio last bp) (update dirty bp false) := by
  have hplain : (s.pc p).Plain := hpc ▸ fun _ => ⟨not_false, not_false⟩
  have howns := (h.procs p).owns
  have hown : holder bp = .proc p := (howns.own bp).mpr (Or.inl hbp)
  have hbuf := h.cached.isBuf_of_holder (b := bp) (by simp [hown])
  have hq : bp ∉ q := howns.quiet bp (Or.inl hbp)
  have hrel := hc.coherent.release (fun x hx hpos hd hb => unique_key h hpos hbuf hx hd hb) hbuf
  have hflags : ∀ (f : BFlags → BFlags) (x : Ptr), x ≠ bp →
      (s.toBio.setFlags bp f).b_flags x = s.b_flags x := fun f x hx => Bio.setFlags_of_ne hx ..
  -- the other buffers are pending as before
  have hpend : ∀ (f : BFlags → BFlags) (k : Pc), (∀ x, x ≠ bp → ¬k.writes x ∧ ¬k.awaits x) →
      ∀ x : Ptr, x ≠ bp → (pending (s.toBio.setFlags bp f) (update s.pc p k) x ↔
        x = bp ∨ pending s.toBio s.pc x) := by
    intro f k hk x hx
    rw [or_iff_right hx]
    refine pending_congr ?_ (exists_update_iff _ (iff_of_false (hk x hx).1 (hplain x).1))
      (exists_update_iff _ (iff_of_false (hk x hx).2 (hplain x).2))
    rw [hflags f x hx]
    exact ⟨rfl, rfl, rfl, fun _ => rfl⟩
  have hkeep : ∀ f : BFlags → BFlags, ∀ x : Ptr, x.IsBuf → x ≠ bp →
      Keeps s.toBio (s.toBio.setFlags bp f) x := by
    intro f x _ hx
    refine Keeps.of_eq rfl rfl ?_
    rw [hflags f x hx]
    exact ⟨rfl, rfl⟩
  have hwrite : ∀ x, x ≠ bp → ¬(Pc.bwrite bp .user).writes x ∧ ¬(Pc.bwrite bp .user).awaits x :=
    fun x hx => ⟨Ne.symm hx, not_false⟩
  have hself : ∀ f : BFlags → BFlags,
      pending (s.toBio.setFlags bp f) (update s.pc p (.bwrite bp .user)) bp := by
    intro f
    refine Or.inr (Or.inl ⟨p, ?_⟩)
    rw [update_self]
    rfl
  rcases hcall with rfl | rfl | rfl
  · refine coh_giveUp h hcur hc (k := .bwrite bp .user) ?_ (fun _ _ x _ => Keeps.refl _ x) trivial
    refine hrel.congr ⟨rfl, rfl⟩ ⟨rfl, rfl⟩ ⟨rfl, rfl⟩ (fun _ => ⟨rfl, rfl, rfl⟩) fun x _ => ?_
    by_cases hx : x = bp
    · rw [hx]
      refine iff_of_true (Or.inr (Or.inl ⟨p, ?_⟩)) (Or.inl rfl)
      rw [update_self]
      rfl
    · rw [or_iff_right hx]
      exact pending_congr ⟨rfl, rfl, rfl, fun _ => rfl⟩
        (exists_update_iff _ (iff_of_false (Ne.symm hx) (hplain x).1))
        (exists_update_iff _ (iff_of_false not_false (hplain x).2))
  · refine coh_giveUp h hcur hc (k := .bwrite bp .user) ?_
      (keeps_other h hown (hkeep fun fl => { fl with b_async := true })) trivial
    refine hrel.setFlags (fun fl => { fl with b_async := true }) (fun _ => ⟨rfl, rfl, rfl⟩)
      fun x _ => ?_
    by_cases hx : x = bp
    · rw [hx]
      exact iff_of_true (hself fun fl => { fl with b_async := true }) (Or.inl rfl)
    · exact hpend (fun fl => { fl with b_async := true }) _ hwrite x hx
  · refine coh_giveUp h hcur hc (k := .brelse bp .user) ?_
      (keeps_other h hown (hkeep fun fl => { fl with b_delwri := true, b_done := true })) trivial
    refine hrel.setFlags_quiet (f := fun fl => { fl with b_delwri := true, b_done := true })
      (first_ne h hq) (fun _ => Or.inr (Or.inl rfl)) (fun _ => rfl) (fun _ => Or.inl ?_)
      fun x _ hx => hpend (fun fl => { fl with b_delwri := true, b_done := true })
        (.brelse bp .user) (fun _ _ => ⟨not_false, not_false⟩) x hx
    rw [Bio.setFlags_self]

/-- `brelse` of a buffer that has not been changed. -/
theorem coh_releasing (hpc : s.pc p = .user) (hclean : dirty bp = false) :
    (enter p (.brelse bp) { s with held := update s.held p ((s.held p).erase bp) }).Coh used
      last (update dirty bp false) := by
  have hsame : update dirty bp false = dirty := by
    rw [← hclean, update_eq_self]
  refine coh_giveUp h hcur hc (k := .brelse bp .user) ?_ (fun _ _ x _ => Keeps.refl _ x) trivial
  have hb := coh_nothing hc (p := p) (hpc ▸ fun _ => ⟨not_false, not_false⟩)
  rw [hsame]
  exact coherent_plain (s := s) (fun _ => ⟨not_false, not_false⟩) hb

omit hcur [DecidableEq π] in
/-- A process changes a buffer that it holds. -/
theorem coh_modify (hbp : bp ∈ s.held p) (val : β) :
    Coh used { s with data := update s.data bp val } last (update dirty bp true) := by
  have hq : bp ∉ q := (h.procs p).owns.quiet bp (Or.inl hbp)
  refine ⟨?_, fun x hx => ?_, fun r => ?_⟩
  · refine (hc.coherent.modify val (first_ne h hq)).congr ⟨rfl, rfl⟩ ⟨rfl, rfl⟩
      ⟨rfl, rfl⟩ (fun _ => ⟨rfl, rfl, rfl⟩) fun _ _ => Iff.rfl
  · by_cases hxbp : x = bp
    · exact ⟨p, hxbp ▸ hbp⟩
    · rw [update_of_ne hxbp] at hx
      exact hc.held x hx
  · exact (hc.reads r).keeps (fun _ _ => Keeps.of_eq rfl rfl ⟨rfl, rfl⟩)
      fun _ _ _ => Keeps.of_eq rfl rfl ⟨rfl, rfl⟩

end

end BioSys

end UnixV6
