import UnixV6.Tools.MkfsFiles

/-!
# A complete image

`main` up to its end: the free list is built, the blocks of the inodes and the last block of the
swap area are cleared, the tree is made and the super block is written. The files stay as `cfile` has
made them.
-/

open Function

namespace UnixV6.Mkfs

variable {E : Env} {lo hi : ℕ} {D : Set ℕ}

/-! ## The blocks that `main` writes itself -/

/-- A block written outside the free area keeps the free list. -/
theorem Frees.wroteAt {s : St} {st : List ℤ} (h : Frees lo hi s st) {pos : ℕ}
    (hpos : pos < lo ∨ hi ≤ pos) (bf : Block) : Frees lo hi (s.wrote pos bf) st := by
  refine ⟨h.stack.congr (fun i _ => rfl) fun c hc i _ => ?_, h.nodup, h.range⟩
  have hrange := h.range c hc
  unfold words St.wrote
  dsimp only
  rw [update_of_ne (by omega)]

/-- A block written below the area keeps the list under construction. -/
theorem Building.wroteAt {top : ℕ} {s : St} {st : List ℤ} (h : Building lo hi top s st) {pos : ℕ}
    (hpos : pos < lo) (bf : Block) : Building lo hi top (s.wrote pos bf) st := by
  refine ⟨fun bf' => (h.stack bf').congr (fun i _ => rfl) fun c hc i _ => ?_, h.pos, h.entries,
    h.nodup, h.range⟩
  have hrange := h.range c hc
  unfold words St.wrote
  dsimp only
  by_cases htop : c.toNat = top
  · rw [htop, update_self, update_self]
  · rw [update_of_ne htop, update_of_ne htop, update_of_ne (by omega)]

/-- The block `top` may be written. -/
theorem Building.wroteTop {top : ℕ} {s : St} {st : List ℤ} (h : Building lo hi top s st)
    (bf : Block) : Frees lo hi (s.wrote top bf) st :=
  ⟨h.stack bf, h.nodup, h.range⟩

/-- The super block is written. -/
theorem Kept.wrote_one {s : St} (h : Kept lo hi D s) (bf : Block) :
    Kept lo hi D (s.wrote 1 bf) := by
  obtain ⟨st, hfrees, hstored⟩ := h.list
  have hlo := h.two_le
  refine ⟨h.isize, ⟨st, hfrees.wroteAt (.inl (by omega)) bf, fun x hx => ?_⟩, h.copied, h.pending,
    h.fits⟩
  have hx₁ := (h.copied x hx).1
  refine (hstored x hx).mono (fun b h₁ _ _ => update_of_ne (by omega) _ _) (fun _ hb => hb)
    fun k _ => ?_
  unfold St.wrote
  dsimp only
  rw [update_of_ne (by omega)]

/-! ## The program -/

/-- Neither the free list nor a file has been made. -/
def Blank (s : St) : Prop := s.s_nfree = 0 ∧ s.s_free = (fun _ => 0) ∧ s.copied = []

/-- A program that moves only its input keeps the image blank. -/
theorem Keeps.blank {α : Type} {m : M α} (h : Keeps St.noInput m) :
    Triple Blank m (fun _ => Blank) fun _ => True :=
  (Triple.of_moves h fun _ _ hs hblank => ⟨(congrArg (·.s_nfree) hs :).trans hblank.1,
    (congrArg (·.s_free) hs :).trans hblank.2.1, (congrArg (·.copied) hs :).trans hblank.2.2⟩).stop
      fun _ _ => trivial

/-- The image is still blank after the boot block's step. -/
theorem blank_boot (fuel : ℕ) : Triple Blank (boot E fuel) (fun _ => Blank) fun _ => True := by
  refine (keeps_getstr fuel).blank.bind fun _ => Triple.get_self.bind fun s => ?_
  cases E.files s.string with
  | none => exact .pure fun s hs => hs
  | some cs =>
    refine Triple.bind (Q := fun _ => Blank) (.modify fun s hs => hs) fun _ => ?_
    exact Triple.get_self.bind fun s => .modify fun s hs => hs

/-- The ratio of the sizes is checked. -/
theorem blank_sizes (fuel : ℕ) :
    Triple Blank (sizes E fuel)
      (fun _ s => Blank s ∧ 2 * s.s_isize.toNat + 2 ≤ s.s_fsize.toNat) fun _ => True := by
  refine (keeps_getnum fuel).blank.bind fun s_fsize => ?_
  refine (keeps_getnum fuel).blank.bind fun s_isize => (keeps_getnum fuel).blank.bind fun swap => ?_
  refine Triple.bind (Q := fun _ s => Blank s ∧ s.s_fsize = s_fsize ∧ s.s_isize = s_isize)
    (.modify fun s hs => ⟨hs, rfl, rfl⟩) fun _ => .ite (fun _ => .throw fun _ _ => trivial) ?_
  refine fun hratio => .pure ?_
  rintro s ⟨hblank, rfl, rfl⟩
  rw [not_or] at hratio
  exact ⟨hblank, by omega⟩

/-- The tree and the super block. -/
theorem guarded_tree (fuel : ℕ) :
    Triple (Guarded ∅)
      (cfile E fuel none >>= fun _ => (modify fun s => { s with buf := Block.zero } : M Unit) >>=
        fun _ => MonadState.get >>= fun s : St => wtfs E 1 s.superblock)
      (fun _ => Guarded ∅) fun _ => True := by
  refine (treeInv_guarded.cfile fuel ∅ none).bind fun _ => .given fun _ => ?_
  have hbuf : Triple (Guarded ∅) (modify fun s => { s with buf := Block.zero } : M Unit)
      (fun _ => Guarded ∅) fun _ => True := by
    refine Guarded.of_kept (fun _ => rfl) (fun _ h => h) fun lo hi => .modify fun s hs => ?_
    obtain ⟨st, hfrees, hstored⟩ := hs.list
    exact ⟨hs.isize, ⟨st, hfrees.congr rfl rfl rfl, hstored⟩, hs.copied, hs.pending, hs.fits⟩
  refine hbuf.bind fun _ => Triple.get_self.bind fun s => ?_
  refine Guarded.of_kept (ends_wtfs _ _).limits (fun _ h => h) fun lo hi => ?_
  rw [wtfs_eq (by decide)]
  exact .modify fun s hs => hs.wrote_one _

section

variable {s₀ : St}

/-- The free list for the sizes of `s₀` has been built. Its first block may still be written. -/
def Ready (s₀ s : St) : Prop :=
  ∃ st, Building (s₀.s_isize.toNat + 2) s₀.s_fsize.toNat (s₀.s_fsize.toNat - 1) s st

/-- `bflist` makes the superblock ready. -/
theorem ready_bflist (fsys : List Byte) (hblank : Blank s₀)
    (hratio : 2 * s₀.s_isize.toNat + 2 ≤ s₀.s_fsize.toNat) (hsound : Sound s₀) :
    Triple (fun s => s = s₀) (bflist E (rotation fsys (1, 1)).1 (rotation fsys (1, 1)).2)
      (fun _ => Ready s₀) fun _ => True := by
  have hr : rotation fsys (1, 1) ∈ [(1, 1), (24, 3), (10, 4)] := rotation_cases fsys (by decide)
  have hhi : s₀.s_fsize.toNat ≤ 32768 := by
    have := hsound.swap
    have := hsound.blocks
    omega
  have hpos : 0 < (rotation fsys (1, 1)).1 := rotation_pos fsys (by decide)
  refine (bflist_spec hr hpos hhi).imp ?_ (fun _ _ hs => hs) fun _ hs => hs
  rintro s rfl
  exact ⟨⟨rfl, rfl, hratio⟩, hblank.1, hblank.2.1⟩

theorem ready_buf :
    Triple (Ready s₀) (modify fun s => { s with buf := Block.zero } : M Unit) (fun _ => Ready s₀)
      fun _ => True :=
  .modify fun _ ⟨st, hs⟩ => ⟨st, hs.stack, hs.pos, hs.entries, hs.nodup, hs.range⟩

/-- The blocks of the inodes are cleared. -/
theorem ready_each {xs : List ℕ} (hxs : ∀ n ∈ xs, n < s₀.s_isize.toNat) :
    Triple (Ready s₀) (each (fun n : ℕ => wtfs E (n + 2) Block.zero) xs) (fun _ => Ready s₀)
      fun _ => True := by
  induction xs with
  | nil => exact .pure fun s hs => hs
  | cons n xs ih =>
    have hwtfs : Triple (Ready s₀) (wtfs E (n + 2) Block.zero) (fun _ => Ready s₀)
        fun _ => True := by
      rw [wtfs_eq (by omega)]
      refine .modify fun s ⟨st, hs⟩ => ⟨st, hs.wroteAt ?_ _⟩
      have := hxs n List.mem_cons_self
      omega
    exact hwtfs.bind fun _ => ih fun m hm => hxs m (List.mem_cons_of_mem _ hm)

/-- The last block of the swap area is cleared; without such an area it is the last block of the
device, the first one of the free list. -/
theorem ready_swap (hratio : 2 * s₀.s_isize.toNat + 2 ≤ s₀.s_fsize.toNat) (hsound : Sound s₀) :
    Triple (Ready s₀) (wtfs E (short (s₀.s_fsize.toNat + s₀.swap.toInt - 1)) Block.zero)
      (fun _ s => ∃ st, Frees (s₀.s_isize.toNat + 2) s₀.s_fsize.toNat s st) fun _ => True := by
  have hswap := hsound.swap
  have hblocks := hsound.blocks
  have hshort : short (s₀.s_fsize.toNat + s₀.swap.toInt - 1) =
      s₀.s_fsize.toNat + s₀.swap.toInt - 1 := by
    unfold short
    rw [Int.bmod_eq_of_le (by omega) (by omega)]
  rw [hshort, wtfs_eq (by omega)]
  refine .modify fun s ⟨st, hs⟩ => ⟨st, ?_⟩
  rcases hswap.eq_or_lt with hzero | hpos
  · have htop : ((s₀.s_fsize.toNat : ℤ) + s₀.swap.toInt - 1).toNat = s₀.s_fsize.toNat - 1 := by
      omega
    rw [htop]
    exact hs.wroteTop _
  · exact hs.frees.wroteAt (.inr (by omega)) _

end

/-- From a blank image `mkfs` ends guarded. -/
theorem guarded_main (fsys : List Byte) (fuel : ℕ) :
    Triple Blank (main E fsys fuel) (fun _ => Guarded ∅) fun _ => True := by
  refine (blank_boot fuel).bind fun _ => (blank_sizes fuel).bind fun _ => .of_forall ?_
  rintro s₀ ⟨hblank, hratio⟩
  -- the sizes are those of `s₀` from now on, so it is known whether they are sound
  have hstep : ∀ {α : Type} {m : M α} {P : St → Prop} {Q : α → St → Prop}, Ends St.noOutput m →
      (Sound s₀ → Triple P m Q fun _ => True) →
      Triple (fun s => (Sound s₀ → P s) ∧ s.noOutput = s₀.noOutput) m
        (fun a s => (Sound s₀ → Q a s) ∧ s.noOutput = s₀.noOutput) fun _ => True :=
    fun hm h => (Triple.guard h).frame hm.keeps fun _ _ h₁ h₂ => h₁.trans h₂
  refine ((hstep (ends_bflist _ _) (ready_bflist fsys hblank hratio)).imp ?_ (fun _ _ hs => hs)
    fun _ hs => hs).bind fun _ => ?_
  · rintro s rfl
    exact ⟨fun _ => rfl, rfl⟩
  have hbuf : Ends St.noOutput (modify fun s => { s with buf := Block.zero } : M Unit) :=
    .modify fun _ => rfl
  refine (hstep hbuf fun _ => ready_buf).bind fun _ => .of_forall fun s hs => ?_
  refine Triple.get_bind ?_
  have hisize : s.s_isize = s₀.s_isize := (congrArg (·.s_isize) hs.2 :)
  have hfsize : s.s_fsize = s₀.s_fsize := (congrArg (·.s_fsize) hs.2 :)
  have hswap : s.swap = s₀.swap := (congrArg (·.swap) hs.2 :)
  rw [hisize, hfsize, hswap]
  refine ((hstep (ends_each (fun _ => ends_wtfs _ _) _) fun _ => ready_each fun n hn =>
    List.mem_range.mp hn).imp ?_ (fun _ _ hs => hs) fun _ hs => hs).bind fun _ => ?_
  · rintro _ rfl
    exact hs
  refine (hstep (ends_wtfs _ _) (ready_swap hratio)).bind fun _ => ?_
  refine (guarded_tree fuel).imp ?_ (fun _ _ hs => hs) fun _ hs => hs
  rintro s₁ ⟨hfrees, hno⟩
  have hlimits : s₁.limits = s₀.limits := (congrArg St.limits hno :)
  have hcopied : s₁.copied = [] := (congrArg (·.copied) hno :).trans hblank.2.2
  have hisize₁ : s₁.s_isize = s₀.s_isize := congrArg (·.2.1) hlimits
  have hfsize₁ : s₁.s_fsize = s₀.s_fsize := congrArg (·.2.2.1) hlimits
  refine ⟨nofun, fun hsound => ?_⟩
  obtain ⟨st, hfrees⟩ := hfrees (hsound.congr hlimits.symm)
  rw [← hisize₁, ← hfsize₁] at hfrees
  refine ⟨rfl, ⟨st, hfrees, ?_⟩, ?_, nofun, ?_⟩
  · rw [hcopied]
    nofun
  · rw [hcopied]
    nofun
  · rw [bound_isize]
    exact hsound.inodes

end UnixV6.Mkfs
