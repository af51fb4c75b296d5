import UnixV6.Dmr.BufWait

/-!
# What the waiting processes depend on

A process that sleeps in the routines of `BufWait` waits for one of three things: that a header is
released, that a transfer ends, or that some buffer becomes available. `Kept` says of a change of
the headers that for those who still sleep after it, these things are still to come. `World` says
which flags and lists a header has according to who holds it.
-/

open Function

namespace UnixV6.BufWait

variable {π : Type}

/-! ## What processes wait for -/

namespace Headers

/-- The header is in use, and its user knows that somebody waits for it. -/
def Contended (s : Headers π) (h : Hdr) : Prop :=
  (s.b_flags h).b_busy = true ∧ (s.b_flags h).b_wanted = true

/-- A transfer that somebody waits for is queued or active. -/
def InTransfer (s : Headers π) (h : Hdr) : Prop :=
  (s.b_flags h).b_done = false ∧ (s.b_flags h).b_async = false ∧ h ∈ s.queue

/-- No buffer is available, and the next one that is released is waited for. -/
def Exhausted (s : Headers π) : Prop := (s.b_flags .bfreelist).b_wanted = true ∧ s.avail = []

end Headers

/-- What a process waits for when it is asleep on `chan`. -/
def Pc.Awaits (s : Headers π) (chan : Hdr) : Pc → Prop
  | .getblk .. => chan.IsBuf ∧ s.Contended chan ∨ chan = .bfreelist ∧ s.Exhausted
  | .iowait bp _ => chan = bp ∧ s.InTransfer bp
  | .swap .. => chan = .swbuf ∧ s.Contended .swbuf
  | .swapWait => chan = .swbuf ∧ s.InTransfer .swbuf
  | _ => False

/-- What a process asleep on a header other than `bfreelist` can wait for. -/
theorem Pc.Awaits.elim {s : Headers π} {chan : Hdr} {k : Pc} (hk : k.Awaits s chan)
    (hchan : chan ≠ .bfreelist) (hcontended : ¬ s.Contended chan)
    (htransfer : ¬ s.InTransfer chan) : False := by
  cases k with
  | getblk => exact Or.elim hk (fun hk => hcontended hk.2) fun hk => hchan hk.1
  | iowait => exact htransfer (hk.1 ▸ hk.2)
  | swap => exact hcontended (hk.1 ▸ hk.2)
  | swapWait => exact htransfer (hk.1 ▸ hk.2)
  | _ => exact hk

/-- Who still sleeps after a change still waits for something to come. -/
structure Kept (s s' : Headers π) : Prop where
  wchan : ∀ r h, s'.p_wchan r = some h → s.p_wchan r = some h
  contended : ∀ r h, s'.p_wchan r = some h → s.Contended h → s'.Contended h
  transfer : ∀ r h, s'.p_wchan r = some h → s.InTransfer h → s'.InTransfer h
  exhausted : ∀ r, s'.p_wchan r = some .bfreelist → s.Exhausted → s'.Exhausted

namespace Kept

variable {s s' s'' : Headers π}

theorem refl : Kept s s :=
  ⟨fun _ _ => id, fun _ _ _ => id, fun _ _ _ => id, fun _ _ => id⟩

theorem trans (h : Kept s s') (h' : Kept s' s'') : Kept s s'' where
  wchan r x hr := h.wchan r x (h'.wchan r x hr)
  contended r x hr hx := h'.contended r x hr (h.contended r x (h'.wchan r x hr) hx)
  transfer r x hr hx := h'.transfer r x hr (h.transfer r x (h'.wchan r x hr) hx)
  exhausted r hr hx := h'.exhausted r hr (h.exhausted r (h'.wchan r .bfreelist hr) hx)

/-- A process that still sleeps still waits for the same. -/
theorem awaits (h : Kept s s') {r : π} {chan : Hdr} (hr : s'.p_wchan r = some chan) {k : Pc}
    (hk : k.Awaits s chan) : k.Awaits s' chan := by
  cases k with
  | getblk =>
    rcases hk with ⟨hbuf, hk⟩ | ⟨rfl, hk⟩
    · exact Or.inl ⟨hbuf, h.contended r chan hr hk⟩
    · exact Or.inr ⟨rfl, h.exhausted r hr hk⟩
  | iowait bp =>
    obtain ⟨rfl, hk⟩ := hk
    exact ⟨rfl, h.transfer r chan hr hk⟩
  | swap =>
    obtain ⟨rfl, hk⟩ := hk
    exact ⟨rfl, h.contended r _ hr hk⟩
  | swapWait =>
    obtain ⟨rfl, hk⟩ := hk
    exact ⟨rfl, h.transfer r _ hr hk⟩
  | _ => exact hk

/-- Flags that nobody waits for are changed. -/
theorem setFlags (bp : Hdr) (f : BFlags → BFlags)
    (hbusy : (s.b_flags bp).b_busy = true → (f (s.b_flags bp)).b_busy = true)
    (hwanted : (s.b_flags bp).b_wanted = true → (f (s.b_flags bp)).b_wanted = true)
    (htransfer : s.InTransfer bp → (f (s.b_flags bp)).b_done = false ∧
      (f (s.b_flags bp)).b_async = false) : Kept s (s.setFlags bp f) := by
  refine ⟨fun _ _ => id, fun r x _ hx => ?_, fun r x _ hx => ?_, fun r _ hx => ?_⟩
  · by_cases hxbp : x = bp
    · subst hxbp
      rw [Headers.Contended, Headers.setFlags_self]
      exact ⟨hbusy hx.1, hwanted hx.2⟩
    · rw [Headers.Contended, Headers.setFlags_of_ne hxbp]
      exact hx
  · by_cases hxbp : x = bp
    · subst hxbp
      obtain ⟨hdone, hasync⟩ := htransfer hx
      rw [Headers.InTransfer, Headers.setFlags_self]
      exact ⟨hdone, hasync, hx.2.2⟩
    · rw [Headers.InTransfer, Headers.setFlags_of_ne hxbp]
      exact hx
  · refine ⟨?_, hx.2⟩
    by_cases hbp : bp = .bfreelist
    · subst hbp
      rw [Headers.setFlags_self]
      exact hwanted hx.1
    · rw [Headers.setFlags_of_ne (Ne.symm hbp)]
      exact hx.1

/-- Nothing has changed for a header on which somebody still sleeps. -/
theorem of_woken (h : ∀ r x, s'.p_wchan r = some x → s.p_wchan r = some x ∧
    s'.b_flags x = s.b_flags x ∧ (x ∈ s.queue → x ∈ s'.queue) ∧
      (x = .bfreelist → s.avail = [] → s'.avail = [])) : Kept s s' := by
  refine ⟨fun r x hr => (h r x hr).1, fun r x hr hx => ?_, fun r x hr hx => ?_,
    fun r hr hx => ?_⟩
  · rw [Headers.Contended, (h r x hr).2.1]
    exact hx
  · rw [Headers.InTransfer, (h r x hr).2.1]
    exact ⟨hx.1, hx.2.1, (h r x hr).2.2.1 hx.2.2⟩
  · rw [Headers.Exhausted, (h r _ hr).2.1]
    exact ⟨hx.1, (h r _ hr).2.2.2 rfl hx.2⟩

/-- Nobody sleeps on the header whose flags are replaced. -/
theorem setFlags_of_none {bp : Hdr} (f : BFlags → BFlags)
    (hnone : ∀ r, s.p_wchan r ≠ some bp) : Kept s (s.setFlags bp f) := by
  refine of_woken fun r x hr => ⟨hr, ?_, id, fun _ => id⟩
  apply Headers.setFlags_of_ne
  rintro rfl
  exact hnone r hr

/-- What sleepers wait for does not depend on the other fields, and requests may be added. -/
theorem of_fields (hwchan : s'.p_wchan = s.p_wchan) (hflags : s'.b_flags = s.b_flags)
    (hqueue : s.queue ⊆ s'.queue) (havail : s.avail = [] → s'.avail = []) : Kept s s' := by
  refine of_woken fun r x hr => ⟨?_, ?_, fun hx => hqueue hx, fun _ => havail⟩
  · rwa [← hwchan]
  · rw [hflags]

end Kept

/-! ## The operations on headers -/

namespace Headers

variable {s : Headers π} {bp x : Hdr}

@[simp]
theorem brelse_rktab (bp : Hdr) (s : Headers π) : (s.brelse bp).rktab = s.rktab := by
  unfold brelse
  dsimp only [setFlags, wakeup]
  split_ifs <;> rfl

@[simp]
theorem brelse_queue (bp : Hdr) (s : Headers π) : (s.brelse bp).queue = s.queue := by
  unfold brelse
  dsimp only [setFlags, wakeup]
  split_ifs <;> rfl

/-- `brelse` leaves the drive alone. -/
@[simp]
theorem brelse_d_active (bp : Hdr) (s : Headers π) : (s.brelse bp).d_active = s.d_active := by
  unfold brelse
  dsimp only [setFlags, wakeup]
  split_ifs <;> rfl

@[simp]
theorem brelse_avail (bp : Hdr) (s : Headers π) : (s.brelse bp).avail = s.avail ++ [bp] := by
  unfold brelse
  dsimp only [setFlags, wakeup]
  split_ifs <;> rfl

/-- A buffer that is released is not busy, wanted or asynchronous. -/
theorem brelse_flags_self (hbp : bp ≠ .bfreelist) : (s.brelse bp).b_flags bp =
    { s.b_flags bp with b_wanted := false, b_busy := false, b_async := false } := by
  unfold brelse
  dsimp only [setFlags, wakeup]
  split_ifs <;> simp [update_of_ne hbp]

/-- `brelse` leaves the flags of the others alone. -/
theorem brelse_flags_of_ne (hx : x ≠ bp) (hx' : x ≠ .bfreelist) :
    (s.brelse bp).b_flags x = s.b_flags x := by
  unfold brelse
  dsimp only [setFlags, wakeup]
  split_ifs <;> simp [update_of_ne hx, update_of_ne hx']

/-- Another header, `bfreelist` included, keeps what its transfer depends on. -/
theorem brelse_transfer_of_ne (hx : x ≠ bp) :
    ((s.brelse bp).b_flags x).b_done = (s.b_flags x).b_done ∧
      ((s.brelse bp).b_flags x).b_async = (s.b_flags x).b_async := by
  unfold brelse
  dsimp only [setFlags, wakeup]
  by_cases hx' : x = .bfreelist
  · subst hx'
    split_ifs <;> simp [update_of_ne hx]
  · split_ifs <;> simp [update_of_ne hx, update_of_ne hx']

/-- The sleepers on the buffer, if it is wanted, and those on `bfreelist`, if it is wanted. -/
theorem brelse_p_wchan (bp : Hdr) (s : Headers π) (r : π) : (s.brelse bp).p_wchan r =
    if s.p_wchan r = some bp ∧ (s.b_flags bp).b_wanted = true ∨
      s.p_wchan r = some .bfreelist ∧ (s.b_flags .bfreelist).b_wanted = true then none
    else s.p_wchan r := by
  unfold brelse
  dsimp only [setFlags, wakeup]
  by_cases hr : s.p_wchan r = some bp
  · split_ifs <;> simp_all
  · split_ifs <;> simp_all

end Headers

namespace Kept

variable {s s' : Headers π} {bp : Hdr}

/-- Nobody waits for the transfer of a buffer that is released. -/
theorem brelse (hqueue : bp ∈ s.queue → (s.b_flags bp).b_async = true) : Kept s (s.brelse bp) := by
  -- who still sleeps after the two wake-ups
  have hchan : ∀ r x, (s.brelse bp).p_wchan r = some x → s.p_wchan r = some x ∧
      (x = bp → (s.b_flags bp).b_wanted = false) ∧
      (x = .bfreelist → (s.b_flags .bfreelist).b_wanted = false) := by
    intro r x hr
    rw [Headers.brelse_p_wchan] at hr
    split_ifs at hr with hwoken
    obtain ⟨hself, hfree⟩ := not_or.mp hwoken
    refine ⟨hr, ?_, ?_⟩
    · rintro rfl
      simpa [hr] using hself
    · rintro rfl
      simpa [hr] using hfree
  refine ⟨fun r x hr => (hchan r x hr).1, fun r x hr hx => ?_, fun r x hr hx => ?_,
    fun r hr hx => ?_⟩
  · obtain ⟨-, hself, hfree⟩ := hchan r x hr
    have hxbp : x ≠ bp := by
      rintro rfl
      simpa [hself rfl] using hx.2
    have hxfree : x ≠ .bfreelist := by
      rintro rfl
      simpa [hfree rfl] using hx.2
    rwa [Headers.Contended, Headers.brelse_flags_of_ne hxbp hxfree]
  · obtain ⟨hdone, hasync, hmem⟩ := hx
    rw [Headers.InTransfer, Headers.brelse_queue]
    have hxbp : x ≠ bp := by
      rintro rfl
      simpa [hasync] using hqueue hmem
    obtain ⟨hdone', hasync'⟩ := Headers.brelse_transfer_of_ne (s := s) hxbp
    rw [hdone', hasync']
    exact ⟨hdone, hasync, hmem⟩
  · have hfree := (hchan r _ hr).2.2 rfl
    simpa [hfree] using hx.1

/-- The end of a transfer: whoever waits for the buffer is woken up. -/
theorem iodone {q : List Hdr} (n : ℕ) (hq : ∀ x ∈ s.queue, x = bp ∨ x ∈ q) :
    Kept s (Headers.iodone bp { s with d_active := n, queue := q }) := by
  unfold Headers.iodone
  dsimp only
  cases ha : (s.b_flags bp).b_async with
  | true =>
    rw [if_pos (by simpa using ha)]
    -- nobody waits for an asynchronous transfer, but perhaps for the release
    have hpop : Kept s { s with d_active := n, queue := q } := by
      refine ⟨fun _ _ => id, fun _ _ _ => id, fun r x _ hx => ?_, fun _ _ => id⟩
      obtain ⟨hdone, hasync, hmem⟩ := hx
      refine ⟨hdone, hasync, (hq x hmem).resolve_left ?_⟩
      rintro rfl
      simp [ha] at hasync
    refine hpop.trans (Kept.trans (setFlags bp _ id id fun hx => ?_) (brelse fun _ => ?_))
    · have hasync : (s.b_flags bp).b_async = false := hx.2.1
      simp [ha] at hasync
    · simpa using ha
  | false =>
    rw [if_neg (by simp [ha]), Headers.setFlags_setFlags]
    refine of_woken fun r x hr => ?_
    simp only [Headers.wakeup] at hr
    split_ifs at hr with hrbp
    have hxbp : x ≠ bp := by
      rintro rfl
      exact hrbp hr
    refine ⟨hr, update_of_ne hxbp .., fun hmem => ?_, fun _ => id⟩
    exact (hq x hmem).resolve_left hxbp

end Kept

/-! ## Who has a header -/

/-- The headers agree with their holders. -/
structure World (s : Headers π) (holder : Hdr → Holder π) : Prop where
  avail : s.avail.Nodup
  free : ∀ x ∈ s.avail, x.IsBuf ∧ holder x = .avail
  listed : ∀ x ∈ s.rktab, x.IsBuf
  head : holder .bfreelist = .avail
  swbuf : holder .swbuf ≠ .io
  busy : ∀ x, x ≠ .bfreelist → ((s.b_flags x).b_busy = true ↔ holder x ≠ .avail)
  calm : ∀ x, x ≠ .bfreelist → holder x = .avail → (s.b_flags x).b_async = false
  nodup : s.queue.Nodup
  queue : ∀ x ∈ s.queue, holder x ≠ .avail ∧ (s.b_flags x).b_done = false ∧
    ((s.b_flags x).b_async = true ↔ holder x = .io)

/-- So do the requests. -/
structure Sound (s : Headers π) (holder : Hdr → Holder π) : Prop extends World s holder where
  io : ∀ x, holder x = .io → x ∈ s.queue
  active : s.d_active = 0 ↔ s.queue = []

namespace World

variable {s : Headers π} {holder : Hdr → Holder π} {bp : Hdr}

theorem ne_bfreelist (h : World s holder) (hbp : holder bp ≠ .avail) : bp ≠ .bfreelist := by
  rintro rfl
  exact hbp h.head

/-- What somebody holds, other than `swbuf`, is a buffer proper. -/
theorem isBuf (h : World s holder) (hbp : holder bp ≠ .avail) (hsw : bp ≠ .swbuf) : bp.IsBuf := by
  cases bp with
  | bfreelist => exact absurd rfl (h.ne_bfreelist hbp)
  | swbuf => exact absurd rfl hsw
  | buf n => trivial

/-- Flags are set that do not say who holds the buffer. -/
theorem setFlags (h : World s holder) (f : BFlags → BFlags)
    (hbusy : bp ≠ .bfreelist → (f (s.b_flags bp)).b_busy = (s.b_flags bp).b_busy)
    (hcalm : bp ≠ .bfreelist → holder bp = .avail → (f (s.b_flags bp)).b_async = false)
    (hqueue : bp ∈ s.queue → (f (s.b_flags bp)).b_done = (s.b_flags bp).b_done ∧
      (f (s.b_flags bp)).b_async = (s.b_flags bp).b_async) : World (s.setFlags bp f) holder := by
  refine ⟨h.avail, h.free, h.listed, h.head, h.swbuf, fun x hx => ?_, fun x hx hfree => ?_,
    h.nodup, fun x hmem => ?_⟩
  · by_cases hxbp : x = bp
    · subst hxbp
      rw [Headers.setFlags_self, hbusy hx]
      exact h.busy x hx
    · rw [Headers.setFlags_of_ne hxbp]
      exact h.busy x hx
  · by_cases hxbp : x = bp
    · subst hxbp
      rw [Headers.setFlags_self]
      exact hcalm hx hfree
    · rw [Headers.setFlags_of_ne hxbp]
      exact h.calm x hx hfree
  · by_cases hxbp : x = bp
    · subst hxbp
      obtain ⟨hdone, hasync⟩ := hqueue hmem
      rw [Headers.setFlags_self, hdone, hasync]
      exact h.queue x hmem
    · rw [Headers.setFlags_of_ne hxbp]
      exact h.queue x hmem

/-- Process `p` takes a buffer that is available. -/
theorem notavail (h : World s holder) (hbuf : bp.IsBuf)
    (hbp : holder bp = .avail) (p : π) :
    World (s.notavail bp) (update holder bp (.proc p)) := by
  have hne : ∀ x, x ≠ bp → update holder bp (.proc p) x = holder x := fun x hx => update_of_ne hx ..
  -- only `bp` changes hands, and it is in no request
  have hflags : ∀ x, x ≠ bp → (s.notavail bp).b_flags x = s.b_flags x := fun x hx =>
    update_of_ne hx ..
  have hqueue : bp ∉ s.queue := fun hmem => (h.queue bp hmem).1 hbp
  have hhead : Hdr.bfreelist ≠ bp := by
    rintro rfl
    exact hbuf
  have hsw : Hdr.swbuf ≠ bp := by
    rintro rfl
    exact hbuf
  refine ⟨h.avail.erase bp, fun x hx => ?_, h.listed, ?_, ?_, fun x hx => ?_, fun x hx hfree => ?_,
    h.nodup, fun x hmem => ?_⟩
  -- what is left on the list is still free
  · obtain ⟨hxbp, hmem⟩ := (h.avail.mem_erase_iff).mp hx
    rw [hne x hxbp]
    exact h.free x hmem
  -- neither the free list's header nor the swap header changes hands
  · rw [hne _ hhead]
    exact h.head
  · rw [hne _ hsw]
    exact h.swbuf
  -- `bp` is busy from now on
  · by_cases hxbp : x = bp
    · subst hxbp
      simp [Headers.notavail]
    · rw [hne x hxbp, hflags x hxbp]
      exact h.busy x hx
  -- the free buffers are other ones
  · have hxbp : x ≠ bp := by
      rintro rfl
      simp at hfree
    rw [hflags x hxbp]
    exact h.calm x hx (hne x hxbp ▸ hfree)
  · have hxbp : x ≠ bp := ne_of_mem_of_not_mem hmem hqueue
    rw [hne x hxbp, hflags x hxbp]
    exact h.queue x hmem

/-- A buffer with no transfer under way is released. -/
theorem brelse (h : World s holder) (hbuf : bp.IsBuf) (hbp : holder bp ≠ .avail)
    (hqueue : bp ∉ s.queue) : World (s.brelse bp) (update holder bp .avail) := by
  -- only `bp` changes hands
  have hne : ∀ x, x ≠ bp → update holder bp .avail x = holder x := fun x hx => update_of_ne hx ..
  have hnot : bp ∉ s.avail := fun hmem => hbp (h.free bp hmem).2
  have hself := Headers.brelse_flags_self (s := s) (h.ne_bfreelist hbp)
  have hsw : Hdr.swbuf ≠ bp := by
    rintro rfl
    exact hbuf
  refine ⟨?_, fun x hx => ?_, ?_, ?_, ?_, fun x hx => ?_, fun x hx hfree => ?_, ?_,
    fun x hmem => ?_⟩
  -- the buffer goes to the end of the list
  · rw [Headers.brelse_avail]
    exact List.nodup_append.mpr ⟨h.avail, List.nodup_singleton bp, fun x hx y hy => by
      rw [List.mem_singleton.mp hy]
      exact ne_of_mem_of_not_mem hx hnot⟩
  · rw [Headers.brelse_avail, List.mem_append, List.mem_singleton] at hx
    by_cases hxbp : x = bp
    · subst hxbp
      exact ⟨hbuf, update_self ..⟩
    · rw [hne x hxbp]
      exact h.free x (hx.resolve_right hxbp)
  · rw [Headers.brelse_rktab]
    exact h.listed
  · rw [hne _ (h.ne_bfreelist hbp).symm]
    exact h.head
  · rw [hne _ hsw]
    exact h.swbuf
  -- `bp` itself is neither busy nor asynchronous now
  · by_cases hxbp : x = bp
    · subst hxbp
      simp [hself]
    · rw [hne x hxbp, Headers.brelse_flags_of_ne hxbp hx]
      exact h.busy x hx
  · by_cases hxbp : x = bp
    · subst hxbp
      rw [hself]
    · rw [Headers.brelse_flags_of_ne hxbp hx]
      exact h.calm x hx (hne x hxbp ▸ hfree)
  · rw [Headers.brelse_queue]
    exact h.nodup
  -- a buffer in a request is another one
  · rw [Headers.brelse_queue] at hmem
    have hxbp : x ≠ bp := ne_of_mem_of_not_mem hmem hqueue
    rw [hne x hxbp, Headers.brelse_flags_of_ne hxbp (h.ne_bfreelist (h.queue x hmem).1)]
    exact h.queue x hmem

/-- `swbuf` is taken, or cleared. -/
theorem setFlags_swbuf (h : World s holder) (f : BFlags → BFlags) {a : Holder π} (ha : a ≠ .io)
    (hbusy : (f (s.b_flags .swbuf)).b_busy = true ↔ a ≠ .avail)
    (hcalm : (f (s.b_flags .swbuf)).b_async = false) (hqueue : .swbuf ∉ s.queue) :
    World (s.setFlags .swbuf f) (update holder .swbuf a) := by
  -- only the swap header changes hands
  have hne : ∀ x, x ≠ .swbuf → update holder .swbuf a x = holder x := fun x hx => update_of_ne hx ..
  refine ⟨h.avail, fun x hx => ?_, h.listed, ?_, ?_, fun x hx => ?_, fun x hx hfree => ?_, h.nodup,
    fun x hmem => ?_⟩
  -- a buffer on the free list is not the swap header
  · obtain ⟨hbuf, hfree⟩ := h.free x hx
    refine ⟨hbuf, ?_⟩
    rw [hne]
    · exact hfree
    · rintro rfl
      exact hbuf
  · rw [hne _ (by simp)]
    exact h.head
  · rwa [update_self]
  · by_cases hxsw : x = .swbuf
    · subst hxsw
      rw [Headers.setFlags_self, update_self]
      exact hbusy
    · rw [Headers.setFlags_of_ne hxsw, hne x hxsw]
      exact h.busy x hx
  · by_cases hxsw : x = .swbuf
    · subst hxsw
      rw [Headers.setFlags_self]
      exact hcalm
    · rw [Headers.setFlags_of_ne hxsw]
      exact h.calm x hx (hne x hxsw ▸ hfree)
  -- nor is the swap header in a request
  · have hxsw : x ≠ .swbuf := ne_of_mem_of_not_mem hmem hqueue
    rw [Headers.setFlags_of_ne hxsw, hne x hxsw]
    exact h.queue x hmem

/-- The end of a transfer, whose request is no longer in the queue. -/
theorem iodone (h : World s holder) (hbp : holder bp ≠ .avail) (hqueue : bp ∉ s.queue)
    (hasync : (s.b_flags bp).b_async = true → bp.IsBuf) :
    World (s.iodone bp)
      (if (s.b_flags bp).b_async then update holder bp .avail else holder) := by
  have hset : World (s.setFlags bp fun fl => { fl with b_done := true }) holder :=
    h.setFlags _ (fun _ => rfl) (fun _ hfree => absurd hfree hbp) fun hmem => absurd hmem hqueue
  unfold Headers.iodone
  dsimp only
  cases ha : (s.b_flags bp).b_async with
  | true =>
    rw [if_pos (by simpa using ha), if_pos rfl]
    exact hset.brelse (hasync ha) hbp hqueue
  | false =>
    rw [if_neg (by simp [ha]), if_neg (by simp)]
    have hclear : World ((s.setFlags bp fun fl => { fl with b_done := true }).setFlags bp
        fun fl => { fl with b_wanted := false }) holder :=
      hset.setFlags _ (fun _ => rfl) (fun _ hfree => absurd hfree hbp) fun hmem =>
        absurd hmem hqueue
    -- `wakeup` changes none of this
    exact ⟨hclear.avail, hclear.free, hclear.listed, hclear.head, hclear.swbuf, hclear.busy,
      hclear.calm, hclear.nodup, hclear.queue⟩

end World

namespace Headers

variable {s : Headers π} {bp x : Hdr}

@[simp]
theorem iodone_queue (bp : Hdr) (s : Headers π) : (s.iodone bp).queue = s.queue := by
  unfold iodone
  dsimp only
  split
  · rw [brelse_queue]
    rfl
  · rfl

/-- `iodone` leaves the drive alone. -/
@[simp]
theorem iodone_d_active (bp : Hdr) (s : Headers π) : (s.iodone bp).d_active = s.d_active := by
  unfold iodone
  dsimp only
  split
  · rw [brelse_d_active]
    rfl
  · rfl

/-- `iodone` leaves the transfers of the others alone. -/
theorem iodone_transfer_of_ne (hx : x ≠ bp) :
    ((s.iodone bp).b_flags x).b_done = (s.b_flags x).b_done ∧
      ((s.iodone bp).b_flags x).b_async = (s.b_flags x).b_async := by
  unfold iodone
  dsimp only
  split
  · obtain ⟨hdone, hasync⟩ := brelse_transfer_of_ne
      (s := s.setFlags bp fun fl => { fl with b_done := true }) hx
    rw [hdone, hasync, setFlags_of_ne hx]
    exact ⟨rfl, rfl⟩
  · rw [wakeup, setFlags_setFlags, setFlags_of_ne hx]
    exact ⟨rfl, rfl⟩

/-- A transfer that somebody waits for is done. -/
theorem iodone_sync (ha : (s.b_flags bp).b_async = false) :
    ((s.iodone bp).b_flags bp).b_done = true ∧ ((s.iodone bp).b_flags bp).b_async = false := by
  unfold iodone
  dsimp only
  rw [if_neg (by simp [ha]), setFlags_setFlags]
  simp [wakeup, ha]

end Headers

end UnixV6.BufWait
