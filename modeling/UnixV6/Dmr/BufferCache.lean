import UnixV6.Dmr.BioCache

/-!
# The structure of the buffer cache

`binit` establishes the invariant, so it holds in every state that the processes and the disk can
reach. What it says about rings, the available list, associations and held buffers is
`BioSys.WellFormed`.
-/

open Function

namespace UnixV6

variable {π β : Type} {clean : Prop} {used : Dev → Dev → Prop}

/-! ## `binit` -/

/-- The lists after the buffers `l` have been freed. -/
structure Freed (s : Bio π β) (l : List Ptr) : Prop where
  ring : LinkRing s.b_forw s.b_back .bfreelist l.reverse
  avail : LinkRing s.av_forw s.av_back .bfreelist l
  flags : ∀ x ∈ l, s.b_flags x = {}
  dev : ∀ x ∈ l, s.b_dev x = -1
  idle : s.d_active = 0 ∧ s.d_actf = .null

/-- One turn of the loop is the release of a buffer that has just been put on the free ring. -/
theorem Bio.binitBuf_eq (s : Bio π β) {bp : Ptr} (hhead : bp ≠ .bfreelist) :
    ∃ s₁ : Bio π β, s.binitBuf bp = s₁.brelse bp ∧
      s₁.b_flags = update s.b_flags bp { b_busy := true } ∧ s₁.b_dev = update s.b_dev bp (-1) ∧
      s₁.b_forw = update (update s.b_forw bp (s.b_forw .bfreelist)) .bfreelist bp ∧
      s₁.b_back = update (update s.b_back bp .bfreelist) (s.b_forw .bfreelist) bp ∧
      s₁.av_forw = s.av_forw ∧ s₁.av_back = s.av_back ∧ s₁.d_active = s.d_active ∧
      s₁.d_actf = s.d_actf := by
  refine ⟨_, rfl, rfl, rfl, rfl, ?_, rfl, rfl, rfl, rfl⟩
  simp only [Bio.setFlags, update_of_ne hhead.symm]

/-- Putting one more buffer on the free list. -/
theorem Freed.binitBuf {s : Bio π β} {l : List Ptr} {bp : Ptr} (h : Freed s l) (hbuf : bp.IsBuf)
    (hbp : bp ∉ l) (hl : ∀ x ∈ l, x.IsBuf) : Freed (s.binitBuf bp) (l ++ [bp]) := by
  have hhead : bp ≠ .bfreelist := hbuf.ne_bfreelist
  obtain ⟨s₁, hs₁, hflags, hdev, hforw, hback, havf, havb, hactive, hactf⟩ :=
    s.binitBuf_eq hhead
  rw [hs₁]
  refine ⟨?_, ?_, fun x hx => ?_, fun x hx => ?_, ?_⟩
  · rw [List.reverse_append, List.reverse_singleton, List.singleton_append, Bio.brelse_b_forw,
      Bio.brelse_b_back, hforw, hback]
    exact h.ring.link_first (by simp [hhead, hbp])
  · rw [Bio.brelse_av_forw, Bio.brelse_av_back, havf, havb]
    exact h.avail.link_last (by simp [hhead, hbp])
  · rcases List.mem_append.mp hx with hx | hx
    · have hxbp : x ≠ bp := ne_of_mem_of_not_mem hx hbp
      rw [Bio.brelse_flags_of_ne hxbp (hl x hx).ne_bfreelist, hflags, update_of_ne hxbp]
      exact h.flags x hx
    · rw [List.mem_singleton.mp hx, Bio.brelse_flags_self hhead, hflags, update_self]
  · rcases Bio.brelse_b_dev bp s₁ x with hsame | ⟨herror, -⟩
    · rw [hsame, hdev]
      rcases List.mem_append.mp hx with hx | hx
      · rw [update_of_ne (ne_of_mem_of_not_mem hx hbp)]
        exact h.dev x hx
      · rw [List.mem_singleton.mp hx, update_self]
    · rw [hflags, update_self] at herror
      cases herror
  · rw [Bio.brelse_d_active, Bio.brelse_d_actf, hactive, hactf]
    exact h.idle

/-- The loop of `binit`. -/
theorem Freed.foldl {s : Bio π β} {l m : List Ptr} (h : Freed s l) (hnodup : (l ++ m).Nodup)
    (hbuf : ∀ x ∈ l ++ m, x.IsBuf) : Freed (m.foldl Bio.binitBuf s) (l ++ m) := by
  induction m generalizing s l with
  | nil => simpa using h
  | cons bp m ih =>
    have hnot : bp ∉ l := by
      intro hmem
      exact List.disjoint_of_nodup_append hnodup hmem List.mem_cons_self
    have hstep := h.binitBuf (hbuf bp (by simp)) hnot fun x hx => hbuf x (by simp [hx])
    have hassoc : l ++ bp :: m = (l ++ [bp]) ++ m := by simp
    rw [hassoc] at hnodup hbuf ⊢
    exact ih hstep hnodup hbuf

/-- All buffers, in the order of their table. -/
def allBufs : List Ptr :=
  (List.finRange NBUF).map .buf

theorem mem_allBufs {bp : Ptr} : bp ∈ allBufs ↔ bp.IsBuf := by
  cases bp <;> simp [allBufs, Ptr.IsBuf]

theorem nodup_allBufs : allBufs.Nodup := by
  apply (List.nodup_finRange NBUF).map
  intro m n hmn
  exact Ptr.buf.inj hmn

namespace BioSys

variable {zero : β} {disk : BitVec 16 → β}

/-- `binit` frees all buffers, and then sets up the device's list. -/
theorem exists_freed_boot (zero : β) (disk : BitVec 16 → β) : ∃ s : Bio π β, Freed s allBufs ∧
    (boot zero disk : BioSys π β).toBio =
      { s with b_forw := update s.b_forw .rktab .rktab, b_back := update s.b_back .rktab .rktab } := by
  have hfreed := Freed.foldl (s := { (Bio.zeroed zero disk : Bio π β) with
      av_back := update (fun _ => .null) .bfreelist .bfreelist
      av_forw := update (fun _ => .null) .bfreelist .bfreelist
      b_back := update (fun _ => .null) .bfreelist .bfreelist
      b_forw := update (fun _ => .null) .bfreelist .bfreelist }) (l := []) (m := allBufs)
    ⟨LinkRing.nil_iff.mpr (by simp), LinkRing.nil_iff.mpr (by simp), by simp, by simp, rfl, rfl⟩
    nodup_allBufs fun x hx => mem_allBufs.mp hx
  rw [List.nil_append] at hfreed
  exact ⟨_, hfreed, rfl⟩

/-- After `binit` all buffers are available and associated with no device. -/
theorem inv_boot : (boot zero disk : BioSys π β).Inv clean used := by
  -- what `binit` leaves: each buffer clean, of no device, on the free list
  obtain ⟨s, hfreed, hboot⟩ : ∃ s : Bio π β, _ := exists_freed_boot zero disk
  have hflags : ∀ x : Ptr, x.IsBuf → s.b_flags x = {} := fun x hx =>
    hfreed.flags x (mem_allBufs.mpr hx)
  have hdev : ∀ x : Ptr, x.IsBuf → s.b_dev x = -1 := fun x hx =>
    hfreed.dev x (mem_allBufs.mpr hx)
  have hneg : (-1 : Dev).slt 0 = true := by decide
  have hrktab : ∀ y ∈ Ptr.bfreelist :: allBufs.reverse, y ≠ .rktab := by
    rintro y hy rfl
    simp [mem_allBufs, Ptr.IsBuf] at hy
  -- every buffer is free, on the list of no device, and no request is queued
  refine ⟨fun h => if h = .bfreelist then allBufs.reverse else [], allBufs, [], fun _ => .avail, ?_⟩
  rw [hboot]
  refine ⟨⟨?_, ?_, hfreed.avail, ?_, fun x => ?_, ?_⟩, ?_, ?_, ?_, fun p => ?_, fun p _ => trivial⟩
  -- the lists of the devices: all buffers in one, none in the other
  · rintro h (rfl | rfl)
    · exact hfreed.ring.congr (fun y hy => update_of_ne (hrktab y hy) ..)
        fun y hy => update_of_ne (hrktab y hy) ..
    · exact LinkRing.nil_iff.mpr (by simp)
  · rintro h (rfl | rfl) x
    · simp only [if_true, List.mem_reverse, mem_allBufs]
      refine ⟨fun hx => ⟨hx, ?_⟩, And.left⟩
      rw [hdev x hx, tabOf, if_pos hneg]
    · simp only [reduceCtorEq, if_false, List.not_mem_nil, false_iff, not_and]
      intro hx
      rw [hdev x hx, tabOf, if_pos hneg]
      simp
  · rw [hfreed.idle.2]
    exact LinkQueue.nil
  · rw [mem_allBufs]
    -- each buffer: free, and with no flag set
    refine ⟨⟨fun hx => ⟨hx, ?_⟩, And.left⟩, by simp, fun hx he => ?_, fun hx _ => ?_, ?_⟩
    · rw [hflags x hx]
    · rw [hflags x hx] at he
      cases he
    · rw [hflags x hx]
    · refine ⟨fun _ hx => ?_, fun _ => rfl⟩
      rw [hflags x hx]
  · intro x y hx _ hassoc
    -- no two buffers have a block in common, since none has a block
    rw [hdev x hx] at hassoc
    exact absurd hassoc.1 (by decide)
  · simp [hfreed.idle.1]
  · simp
  · refine fun _ => ⟨fun x hx hpos => ?_, by simp⟩
    rw [hdev x hx] at hpos
    exact absurd hpos (by decide)
  -- no process holds anything
  · refine ⟨⟨fun x => ?_, List.nodup_nil, ?_, ?_⟩, trivial, fun _ => trivial⟩ <;>
      simp [boot, Pc.hand, Pc.quiet, Pc.calm]

section

variable [DecidableEq π] {s s' : BioSys π β} {p r : π} {bp x : Ptr}

theorem mem_held_leaveWith (h : bp ∈ s.held r) : bp ∈ (s.leaveWith p x).held r := by
  rw [leaveWith, leave]
  by_cases hr : r = p
  · subst hr
    simp [h]
  · simp [update_of_ne hr, h]

/-- Returning from `getblk` keeps what the process holds. -/
theorem mem_held_getblkReturn {k : GetblkRet} (h : bp ∈ s.held r) :
    bp ∈ (s.getblkReturn p x k).held r := by
  cases k with
  | user => exact mem_held_leaveWith h
  | _ => exact h

/-- Returning from `bwrite` keeps what the process holds. -/
theorem mem_held_bwriteReturn {k : BwriteRet} (h : bp ∈ s.held r) :
    bp ∈ (s.bwriteReturn p k).held r := by
  cases k <;> exact h

/-- Returning from `breada` keeps what the process holds. -/
theorem mem_held_breadaReturn {dev blkno : Dev} {rbp : Option Ptr} (h : bp ∈ s.held r) :
    bp ∈ (s.breadaReturn p dev blkno rbp).held r := by
  cases rbp <;> exact h

/-- Within the routines no process loses a buffer that it holds. -/
theorem mem_held_runPiece (h : bp ∈ s.held r) (hs : s.runPiece p = some s') : bp ∈ s'.held r := by
  generalize hpc : s.pc p = k
  -- one case for each piece, in the order of the source
  cases k <;> simp only [runPiece, hpc] at hs
  case user => cases hs
  case getblk =>
    split at hs
    · obtain rfl := Option.some.inj hs
      exact h
    · obtain ⟨_ | _, -, rfl⟩ := Option.map_eq_some_iff.mp hs <;> exact h
  case getblkFound | getblkAvail => split at hs <;> obtain rfl := Option.some.inj hs <;> exact h
  case getblkTake =>
    obtain rfl := Option.some.inj hs
    exact mem_held_getblkReturn h
  case getblkOldest =>
    obtain rfl := Option.some.inj hs
    exact h
  case getblkReuse =>
    split at hs
    · obtain rfl := Option.some.inj hs
      exact h
    -- the piece that ends `getblk`
    · obtain ⟨dp, -, rfl⟩ := Option.map_eq_some_iff.mp hs
      exact mem_held_getblkReturn h
  case bread =>
    split at hs
    · obtain rfl := Option.some.inj hs
      exact mem_held_leaveWith h
    · obtain ⟨b, -, rfl⟩ := Option.map_eq_some_iff.mp hs
      exact h
  case breada => obtain ⟨_ | _, -, rfl⟩ := Option.map_eq_some_iff.mp hs <;> exact h
  case breadaRead =>
    split at hs
    · obtain rfl := Option.some.inj hs
      exact h
    · obtain ⟨b, -, rfl⟩ := Option.map_eq_some_iff.mp hs
      exact h
  case readahead =>
    split at hs
    · obtain rfl := Option.some.inj hs
      exact mem_held_breadaReturn h
    · obtain ⟨_ | _, -, rfl⟩ := Option.map_eq_some_iff.mp hs
      · exact h
      · exact mem_held_breadaReturn h
  case readaheadRead =>
    split at hs
    · obtain rfl := Option.some.inj hs
      exact mem_held_breadaReturn h
    · obtain ⟨b, -, rfl⟩ := Option.map_eq_some_iff.mp hs
      exact mem_held_breadaReturn h
  case bwrite =>
    obtain ⟨b, -, rfl⟩ := Option.map_eq_some_iff.mp hs
    split
    · exact mem_held_bwriteReturn h
    · exact h
  case iowait bp k =>
    split at hs
    -- a read is over: the buffer is the process's
    · cases k <;> obtain rfl := Option.some.inj hs
      · exact mem_held_leaveWith h
      · exact h
    · obtain rfl := Option.some.inj hs
      exact h
  case brelse =>
    obtain rfl := Option.some.inj hs
    exact mem_held_bwriteReturn h
  case bflush => obtain ⟨_ | _, -, rfl⟩ := Option.map_eq_some_iff.mp hs <;> exact h

/-- A process loses a buffer that it holds only when it releases it. -/
theorem mem_held_step {a : BioAct π β} (h : bp ∈ s.held r) (hs : s.step a = some s') :
    bp ∈ s'.held r ∨ ∃ c : Call, a = .call r c ∧ c.releases = some bp := by
  cases a with
  | call p c =>
    simp only [step] at hs
    split at hs
    · obtain ⟨s₁, hgive, rfl⟩ := Option.map_eq_some_iff.mp hs
      -- the entry of a call holds and releases nothing
      have henter : (enter p c s₁).held = s₁.held := by cases c <;> rfl
      rw [henter]
      unfold giveUp at hgive
      split at hgive
      · obtain rfl := Option.some.inj hgive
        exact Or.inl h
      · rename_i x hc
        split at hgive
        · obtain rfl := Option.some.inj hgive
          by_cases hr : r = p
          · subst hr
            -- the buffer given up is this one, or another
            by_cases hx : bp = x
            · exact Or.inr ⟨c, rfl, hx ▸ hc⟩
            · left
              simp [List.mem_erase_of_ne hx, h]
          · left
            simpa [update_of_ne hr] using h
        · cases hgive
    · cases hs
  | run p =>
    simp only [step] at hs
    split at hs
    · exact Or.inl (mem_held_runPiece h hs)
    · cases hs
  | modify p x val =>
    simp only [step] at hs
    split at hs
    · split at hs
      · obtain rfl := Option.some.inj hs
        exact Or.inl h
      · cases hs
    · cases hs
  | intr =>
    obtain rfl := Option.some.inj hs
    exact Or.inl h

end

/-! ## The structural invariant -/

/-- The structure of the cache between any two pieces of code. -/
structure WellFormed (s : BioSys π β) : Prop where
  /-- Each buffer is on exactly one device ring. -/
  rings : ∃ lf lr, LinkRing s.b_forw s.b_back .bfreelist lf ∧
    LinkRing s.b_forw s.b_back .rktab lr ∧ (∀ x ∈ lf ++ lr, x.IsBuf) ∧
    ∀ bp : Ptr, bp.IsBuf → (bp ∈ lf ∧ bp ∉ lr) ∨ (bp ∉ lf ∧ bp ∈ lr)
  /-- The two links of a ring are inverse to each other. -/
  inverse : ∀ bp : Ptr, bp.IsBuf → s.b_back (s.b_forw bp) = bp ∧ s.b_forw (s.b_back bp) = bp
  /-- The available list has the buffers that are not busy. -/
  avail : ∃ la, LinkRing s.av_forw s.av_back .bfreelist la ∧
    ∀ bp, bp ∈ la ↔ bp.IsBuf ∧ (s.b_flags bp).b_busy = false
  /-- No block has two buffers, unless by its minor number it is none. -/
  unique : ∀ bp bp' : Ptr, bp.IsBuf → bp'.IsBuf → (s.b_dev bp).slt 0 = false →
    s.b_dev bp &&& 0xff ≠ 0xff → s.b_dev bp = s.b_dev bp' → s.b_blkno bp = s.b_blkno bp' → bp = bp'
  /-- A buffer is held by one process only, and busy. -/
  held : ∀ p bp, bp ∈ s.held p → bp.IsBuf ∧ (s.b_flags bp).b_busy = true ∧
    ∀ r, bp ∈ s.held r → r = p
  held_nodup : ∀ p, (s.held p).Nodup

theorem Inv.wellFormed {s : BioSys π β} (h : s.Inv False used) : s.WellFormed := by
  obtain ⟨ring, la, q, holder, h⟩ := h
  have hc := h.cached
  have hfree : Ptr.IsHead .bfreelist := Or.inl rfl
  have hrk : Ptr.IsHead .rktab := Or.inr rfl
  have hown : ∀ p bp, bp ∈ s.held p → holder bp = .proc p := fun p bp hbp =>
    ((h.procs p).owns.own bp).mpr (Or.inl hbp)
  refine ⟨⟨ring .bfreelist, ring .rktab, hc.rings _ hfree, hc.rings _ hrk, fun x hx => ?_,
    fun bp hbp => ?_⟩, fun bp hbp => ?_, ⟨la, hc.avail, fun bp => (hc.bufs bp).avail⟩,
    fun bp bp' hbp hbp' hpos hminor => hc.unique bp bp' hbp hbp' ⟨hpos, hminor⟩,
    fun p bp hbp => ⟨?_, ?_, fun r hr => ?_⟩, fun p => (h.procs p).owns.nodup.of_append_right⟩
  · rcases List.mem_append.mp hx with hx | hx
    · exact hc.isBuf_of_mem_ring hfree hx
    · exact hc.isBuf_of_mem_ring hrk hx
  · rw [hc.mem_ring _ hfree, hc.mem_ring _ hrk]
    rcases Ptr.isHead_tabOf (s.b_dev bp) with htab | htab <;> simp [hbp, htab]
  · have hhead := Ptr.isHead_tabOf (s.b_dev bp)
    have hmem := List.mem_cons_of_mem (tabOf (s.b_dev bp))
      ((hc.mem_ring _ hhead bp).mpr ⟨hbp, rfl⟩)
    exact ⟨((hc.rings _ hhead).prev_next hmem).2, ((hc.rings _ hhead).next_prev hmem).2⟩
  · exact hc.isBuf_of_holder (by simp [hown p bp hbp])
  · exact hc.busy_of_holder (by simp [hown p bp hbp])
  · have heq := (hown r bp hr).symm.trans (hown p bp hbp)
    simpa using heq

/-- In every state that the processes and the disk can reach, whatever the errors, the cache is well
formed, and a buffer stays with the process that holds it until that process releases it. -/
theorem wellFormed_of_reachable [DecidableEq π] {s : BioSys π β}
    (h : Reachable step (fun _ _ => True) (boot zero disk) s) :
    s.WellFormed ∧ ∀ a s', s.step a = some s' → ∀ p bp, bp ∈ s.held p →
      bp ∈ s'.held p ∨ ∃ c : Call, a = .call p c ∧ c.releases = some bp := by
  have hinv : s.Inv False (fun _ _ => True) := by
    refine h.invariant inv_boot fun s a s' hs _ hstep => hs.step ?_ hstep
    cases a <;> first | trivial | exact fun hf => hf.elim
  exact ⟨hinv.wellFormed, fun a s' hs p bp hbp => mem_held_step hbp hs⟩

/-- A process reads block 0 and has it. -/
def readBlock : List (BioAct Unit Unit) :=
  [.call () (.bread 0 0)] ++ List.replicate 6 (.run ()) ++ [.intr, .run ()]

/-- After one `bread` the process holds a buffer and the lists are well formed. -/
theorem wellFormed_of_reachable_read : ∃ s : BioSys Unit Unit, .buf 0 ∈ s.held () ∧
    s.WellFormed := by
  have hrun : (runSteps step readBlock (boot () fun _ => ())).any
      (fun s : BioSys Unit Unit => .buf 0 ∈ s.held ()) = true := by
    decide +kernel
  obtain ⟨s, hs, hheld⟩ := (Option.any_eq_true _ _).mp hrun
  exact ⟨s, by simpa using hheld, (wellFormed_of_reachable (Reachable.refl.of_runSteps hs)).1⟩

/-- Two reads of a block beyond the end of the disk. -/
def readTwice : List (BioAct Unit Unit) :=
  [.call () (.bread 0 4872)] ++ List.replicate 6 (.run ()) ++ [.call () (.brelse (.buf 0)), .run (),
    .call () (.bread 0 4872)] ++ List.replicate 6 (.run ()) ++ [.call () (.brelse (.buf 1)), .run ()]

/-- After two errors two buffers have the same device and block number. -/
theorem not_unique_of_reachable : ∃ s : BioSys Unit Unit,
    Reachable step (fun _ _ => True) (boot () fun _ => ()) s ∧
    ∃ m n : Fin NBUF, m ≠ n ∧ (s.b_dev (.buf m)).slt 0 = false ∧
      s.b_dev (.buf m) = s.b_dev (.buf n) ∧ s.b_blkno (.buf m) = s.b_blkno (.buf n) := by
  have hrun : (runSteps step readTwice (boot () fun _ => ())).any (fun s : BioSys Unit Unit =>
      (s.b_dev (.buf 0)).slt 0 = false ∧ s.b_dev (.buf 0) = s.b_dev (.buf 1) ∧
        s.b_blkno (.buf 0) = s.b_blkno (.buf 1)) = true := by
    decide +kernel
  obtain ⟨s, hs, hdev⟩ := (Option.any_eq_true _ _).mp hrun
  rw [decide_eq_true_eq] at hdev
  exact ⟨s, Reachable.refl.of_runSteps hs, 0, 1, by decide, hdev⟩

end BioSys

end UnixV6
