import UnixV6.Ken.Swapping
import UnixV6.Ken.Iget

/-!
# The panics that cannot happen (`ken/slp.c`, `ken/sys1.c`, `ken/sys4.c`)

`newproc` has no process table entry, `exit` has no swap block for the user area, `unlink` gets no
in-core inode for the entry that it has found. The processes with their images and the in-core inodes
take their steps in any order here. A kernel that has panicked does nothing any more.
-/

open Function

namespace UnixV6

inductive KPanic
  /-- "no procs" -/
  | noProcs
  /-- "unlink -- iget" -/
  | unlinkIget
  /-- "out of swap" -/
  | outOfSwap
  deriving DecidableEq

/-- The kernel. -/
structure PanicSys (κ : Type) where
  sys : Sys
  files : InodeSys Slot κ
  /-- The last `iget` of the process is the one of `unlink`. -/
  unlinking : Slot → Bool
  panic : Option KPanic

inductive PanicAct (κ : Type)
  /-- Something that has to do with process images. -/
  | proc (a : Act)
  /-- Something that has to do with in-core inodes. -/
  | file (a : InodeAct Slot κ)
  /-- `unlink` behind its `namei`: the holder `pp` has the directory, locked, and `ino` is the number
  in the entry. -/
  | unlink (p : Slot) (pp k : κ) (ino : ℤ)

namespace PanicSys

variable {κ : Type} [DecidableEq κ]

/-- The `for` loop of `newproc`, with the entry found so far; it ends early, with `true`, at an entry
that has the process number. -/
def newprocLoop (s : Sys) (mpid : ℕ) : List Slot → Option Slot → Option Slot × Bool
  | [], p => (p, false)
  | rpp :: rest, p =>
    let p := if (s.proc rpp).p_stat = .null ∧ p = none then some rpp else p
    if (s.proc rpp).p_pid = mpid then (p, true) else newprocLoop s mpid rest p

/-- The search of `newproc` from `retry` on. An entry found in a round that ended early is kept. -/
def newprocSearch (s : Sys) : ℕ → ℕ → Option Slot → Option (Option Slot)
  | 0, _, _ => none
  | tries + 1, mpid, p =>
    if mpid + 1 = 32768 then newprocSearch s tries 0 p
    else
      match newprocLoop s (mpid + 1) (List.finRange NPROC) p with
      | (p, true) => newprocSearch s tries (mpid + 1) p
      | (p, false) => some p

/-- The search of `newproc` finds no entry. -/
def newprocPanics (s : Sys) : Bool := newprocSearch s (NPROC + 2) s.mpid none = some none

/-- `malloc(swapmap, 1)` returns 0. -/
def exitPanics (s : Sys) : Bool := (malloc s.swapmap 1).any fun x => x.1 = 0

/-- The panic at the end of a step. -/
def procPanic (s : Sys) : Act → Option KPanic
  | .fork p =>
    -- `fork` has looked for an entry itself.
    if runnable s p ∧ s.ctx p = .user ∧ freeSlot s ≠ none ∧ newprocPanics s then some .noProcs
    else none
  | .exit p =>
    if runnable s p ∧ s.ctx p = .user ∧ exitPanics s then some .outOfSwap else none
  | _ => none

/-- One pass of the loop of an `iget`. -/
def igetPass (M : MountTable κ) (s : PanicSys κ) (p : Slot) (k : κ) (name : ℤ × ℤ) (dev ino : ℤ) :
    Option (PanicSys κ) :=
  if s.unlinking p ∧ s.files.findInode dev ino = none ∧ s.files.findFree = none then
    some { s with panic := some .unlinkIget }
  else (s.files.iget M p k name dev ino).map fun files => { s with files }

/-- A step with the in-core inodes. The disk works. -/
def fileStep (M : MountTable κ) (s : PanicSys κ) : InodeAct Slot κ → Option (PanicSys κ)
  | .run p error =>
    if error then none
    else
      match s.files.pc p with
      | .iget k name dev ino => s.igetPass M p k name dev ino
      | _ => (s.files.run M p false).map fun files => { s with files }
  | .iget p k dev ino =>
    (s.files.step M (.iget p k dev ino)).map fun files =>
      { s with files, unlinking := update s.unlinking p false }
  | a => (s.files.step M a).map fun files => { s with files }

/-- `prele(pp)` and the `iget` of `unlink`. -/
def unlink (M : MountTable κ) (s : PanicSys κ) (p : Slot) (pp k : κ) (ino : ℤ) : Option (PanicSys κ) :=
  if s.files.pc p = .idle ∧ s.files.locked p pp = true ∧ s.files.Settled pp ∧ s.files.ref k = none ∧
      s.files.Settled k ∧ ino ≠ 0 then
    (s.files.ref pp).bind fun ip =>
      let dev := (s.files.inode ip).i_dev
      igetPass M { s with
        files := (s.files.prele ip).unlocked p ip
        unlinking := update s.unlinking p true } p k (dev, ino) dev ino
  else none

def step (M : MountTable κ) (s : PanicSys κ) (a : PanicAct κ) : Option (PanicSys κ) :=
  if s.panic.isSome then none
  else
    match a with
    | .proc a =>
      match procPanic s.sys a with
      | some x => some { s with panic := some x }
      | none => (UnixV6.step s.sys a).map fun sys => { s with sys }
    | .file a => s.fileStep M a
    | .unlink p pp k ino => s.unlink M p pp k ino

/-! ## The condition -/

/-- There is a free swap block. -/
def SwapFree (s : Sys) : Prop :=
  ∃ bp, s.swapmap.head? = some bp ∧ bp.m_size ≠ 0 ∧ bp.m_addr ≠ 0

/-- The inode is in core, or not all in-core inodes are in use. -/
def HasInode (s : InodeSys Slot κ) (dev ino : ℤ) : Prop :=
  (∃ ip, (s.inode ip).i_dev = dev ∧ (s.inode ip).i_number = ino) ∨ ∃ ip, (s.inode ip).i_count = 0

/-- There is a swap block for a process that exits, and an in-core inode for the `iget` of an
`unlink`, whenever it goes through its loop. -/
def Ok (s : PanicSys κ) : PanicAct κ → Prop
  | .proc (.exit _) => SwapFree s.sys
  | .file (.run p _) => s.unlinking p = true → ∀ k name dev ino,
      s.files.pc p = .iget k name dev ino → HasInode s.files dev ino
  | .unlink _ pp _ ino => ∀ ip, s.files.ref pp = some ip →
      HasInode s.files (s.files.inode ip).i_dev ino
  | _ => True

variable {M : MountTable κ} {s s' s₀ : PanicSys κ}

omit [DecidableEq κ] in
/-- `iget` has a slot if the inode is in the table or a slot is free. -/
theorem hasInode_iff {f : InodeSys Slot κ} {dev ino : ℤ} :
    HasInode f dev ino ↔ ¬ (f.findInode dev ino = none ∧ f.findFree = none) := by
  simp only [HasInode, InodeSys.findInode, InodeSys.findFree, List.find?_eq_none, List.mem_finRange,
    forall_true_left, Bool.and_eq_true, beq_iff_eq, not_and_or, not_forall, not_or, not_not]

omit [DecidableEq κ] in
/-- Unlocking changes no name and no count. -/
theorem hasInode_prele {f : InodeSys Slot κ} {p : Slot} {ip : InodePtr} {dev ino : ℤ} :
    HasInode ((f.prele ip).unlocked p ip) dev ino ↔ HasInode f dev ino := by
  have hinode : ∀ jp, (((f.prele ip).unlocked p ip).inode jp).i_dev = (f.inode jp).i_dev ∧
      (((f.prele ip).unlocked p ip).inode jp).i_number = (f.inode jp).i_number ∧
      (((f.prele ip).unlocked p ip).inode jp).i_count = (f.inode jp).i_count := by
    intro jp
    rcases eq_or_ne jp ip with rfl | hne
    · simp [InodeSys.unlocked, InodeSys.prele, InodeSys.setInode]
    · simp [InodeSys.unlocked, InodeSys.prele, InodeSys.setInode, hne]
  simp only [HasInode, hinode]

/-- Whether a round of the search ends early or not, what it has found so far is the first free entry
that it has come to. -/
theorem newprocLoop_spec {s : Sys} {mpid : ℕ} {l : List Slot} {p p' : Option Slot} {early : Bool}
    (h : newprocLoop s mpid l p = (p', early)) :
    (p' = p ∨ p' = p.or (l.find? fun q => (s.proc q).p_stat = .null)) ∧
      (early = false → p' = p.or (l.find? fun q => (s.proc q).p_stat = .null)) := by
  induction l generalizing p with
  | nil =>
    obtain ⟨rfl, rfl⟩ := Prod.mk.inj h
    simp
  | cons q l ih =>
    simp only [newprocLoop] at h
    have hnext : (if (s.proc q).p_stat = .null ∧ p = none then some q else p).or
        (l.find? fun q => (s.proc q).p_stat = .null) =
        p.or ((q :: l).find? fun q => (s.proc q).p_stat = .null) := by
      cases p <;> by_cases hq : (s.proc q).p_stat = .null <;> simp [hq]
    have hhere : (if (s.proc q).p_stat = .null ∧ p = none then some q else p) = p ∨
        (if (s.proc q).p_stat = .null ∧ p = none then some q else p) =
          p.or ((q :: l).find? fun q => (s.proc q).p_stat = .null) := by
      cases p <;> by_cases hq : (s.proc q).p_stat = .null <;> simp [hq]
    split at h
    · obtain ⟨rfl, rfl⟩ := Prod.mk.inj h
      exact ⟨hhere, nofun⟩
    · obtain ⟨hor, hfull⟩ := ih h
      rw [hnext] at hor hfull
      refine ⟨?_, hfull⟩
      rcases hor with rfl | hor
      · exact hhere
      · exact .inr hor

/-- The search of `newproc` ends with the first free entry, however often it is begun again. -/
theorem newprocSearch_eq {s : Sys} {tries mpid : ℕ} {p p' : Option Slot}
    (hp : p = none ∨ p = freeSlot s) (h : newprocSearch s tries mpid p = some p') :
    p' = freeSlot s := by
  have hor : p.or (freeSlot s) = freeSlot s := by
    rcases hp with rfl | rfl
    · rfl
    · cases freeSlot s <;> rfl
  induction tries generalizing mpid p with
  | zero => simp [newprocSearch] at h
  | succ tries ih =>
    simp only [newprocSearch] at h
    split at h
    · exact ih hp h hor
    · split at h
      · next hround =>
        have hfound := (newprocLoop_spec hround).1
        rw [← freeSlot, hor] at hfound
        refine ih ?_ h ?_
        · rcases hfound with rfl | rfl
          · exact hp
          · exact .inr rfl
        · rcases hfound with rfl | rfl
          · exact hor
          · cases freeSlot s <;> rfl
      · next hround =>
        rw [← Option.some.inj h, (newprocLoop_spec hround).2 rfl, ← freeSlot, hor]

/-- The first entry of the map decides. -/
theorem exitPanics_iff {s : Sys} {a : ℕ} {mp : List Map} (h : malloc s.swapmap 1 = some (a, mp)) :
    exitPanics s = true ↔ ¬ SwapFree s := by
  have hexit : exitPanics s = true ↔ a = 0 := by simp [exitPanics, h]
  rw [hexit]
  cases hmap : s.swapmap with
  | nil => simp [hmap, malloc] at h
  | cons bp rest =>
    have hfree : SwapFree s ↔ bp.m_size ≠ 0 ∧ bp.m_addr ≠ 0 := by simp [SwapFree, hmap]
    rw [hfree]
    rw [hmap] at h
    simp only [malloc] at h
    split at h
    · next h0 =>
      obtain ⟨rfl, -⟩ := Prod.mk.inj (Option.some.inj h)
      exact iff_of_true rfl fun hand => hand.1 h0
    · next h0 =>
      have ha : a = bp.m_addr := by
        rw [if_pos (Nat.one_le_iff_ne_zero.mpr h0)] at h
        split at h
        · obtain ⟨mp', -, heq⟩ := Option.map_eq_some_iff.mp h
          exact (Prod.mk.inj heq).1.symm
        · exact (Prod.mk.inj (Option.some.inj h)).1.symm
      rw [ha]
      exact ⟨fun hzero hand => hand.2 hzero, fun hnot => not_not.mp fun hne => hnot ⟨h0, hne⟩⟩

/-- As long as images keep apart there is a free swap block exactly if one is left by the images that
are swapped out, the zombies, and the work in hand. -/
theorem swapFree_iff {s : Sys} (hok : s.Ok) (hex : Exclusive s) :
    SwapFree s ↔ ∃ b ∈ swapPool, ∀ o, b ∉ s.table.swapOwn o := by
  obtain ⟨l, hl⟩ := hok.swapmap
  obtain ⟨z, hz, hzero⟩ := hl.layout
  have hfree := hl.freeUnits_eq
  constructor
  · rintro ⟨bp, hbp, hsize, -⟩
    rw [hz] at hbp
    cases l with
    | nil => exact absurd (hzero bp (List.mem_of_mem_head? hbp)) hsize
    | cons e l =>
      -- the first extent is free
      have hmem : e.base ∈ freeUnits s.swapmap := by
        have hpos := hl.coalesced.pos e List.mem_cons_self
        rw [hfree]
        exact Extent.mem_covered.mpr ⟨e, List.mem_cons_self, le_rfl, by simp [Extent.stop, hpos]⟩
      exact ⟨e.base, hex.swap.mem_total_iff.mpr (.inr hmem),
        fun o ho => hex.swap.not_free_of_mem ho hmem⟩
  · rintro ⟨b, hb, hown⟩
    have hmem := (hex.swap.mem_total_iff.mp hb).resolve_left (not_exists.mpr hown)
    rw [hfree] at hmem
    -- a block that nobody owns is in some extent, so there is a first one
    obtain ⟨e, he, hbe⟩ := Extent.mem_covered.mp hmem
    cases l with
    | nil => exact absurd he List.not_mem_nil
    | cons e' l =>
      have hpos := hl.coalesced.pos e' List.mem_cons_self
      have hin : e'.base ∈ swapPool := by
        refine hex.swap.mem_total_iff.mpr (.inr ?_)
        rw [hfree]
        exact Extent.mem_covered.mpr ⟨e', List.mem_cons_self, le_rfl, by simp [Extent.stop, hpos]⟩
      refine ⟨Map.ofExtent e', by rw [hz]; rfl, ?_, ?_⟩
      · rw [Map.ofExtent_m_size]
        exact Nat.pos_iff_ne_zero.mp hpos
      · rw [Map.ofExtent_m_addr]
        rintro h0
        exact zero_notMem_swapPool (h0 ▸ hin)

/-! ## Steps -/

/-- `iget` panics only in `unlink`, and there exactly without a slot. -/
theorem igetPass_panic {p : Slot} {k : κ} {name : ℤ × ℤ} {dev ino : ℤ} (hpanic : s.panic = none)
    (h : s.igetPass M p k name dev ino = some s') :
    s'.panic = none ↔ (s.unlinking p = true → HasInode s.files dev ino) := by
  unfold igetPass at h
  split at h
  · next hfull =>
    obtain rfl := Option.some.inj h
    refine iff_of_false (by simp) fun hhas => ?_
    exact hasInode_iff.mp (hhas hfull.1) hfull.2
  · next hroom =>
    obtain ⟨files, -, rfl⟩ := Option.map_eq_some_iff.mp h
    refine iff_of_true hpanic fun hunlink => hasInode_iff.mpr fun hnone => hroom ⟨hunlink, hnone⟩

/-- A file step panics exactly where the condition fails. -/
theorem fileStep_panic {a : InodeAct Slot κ} (hpanic : s.panic = none)
    (h : s.fileStep M a = some s') : s'.panic = none ↔ s.Ok (.file a) := by
  cases a with
  | run p error =>
    simp only [fileStep] at h
    split at h
    · exact absurd h (by simp)
    · split at h
      · next k name dev ino hpc =>
        rw [igetPass_panic hpanic h]
        simp only [Ok, hpc]
        refine forall_congr' fun _ => ⟨fun hhas k' name' dev' ino' heq => ?_, fun hall => ?_⟩
        · cases heq
          exact hhas
        · exact hall k name dev ino rfl
      · next hpc =>
        obtain ⟨files, -, rfl⟩ := Option.map_eq_some_iff.mp h
        exact iff_of_true hpanic fun _ k name dev ino heq => absurd heq (hpc k name dev ino)
  | iget p k dev ino =>
    obtain ⟨files, -, rfl⟩ := Option.map_eq_some_iff.mp h
    exact iff_of_true hpanic trivial
  | iput p k | plock p k | prele p k | update p | share p k k' | modify p k d iupd iacc
    | abandon p =>
    obtain ⟨files, -, rfl⟩ := Option.map_eq_some_iff.mp h
    exact iff_of_true hpanic trivial

/-- `unlink` panics exactly if its `iget` finds no slot. -/
theorem unlink_panic {p : Slot} {pp k : κ} {ino : ℤ} (hpanic : s.panic = none)
    (h : s.unlink M p pp k ino = some s') : s'.panic = none ↔ s.Ok (.unlink p pp k ino) := by
  unfold unlink at h
  obtain ⟨-, h⟩ := Option.ite_none_right_eq_some.mp h
  obtain ⟨ip, hip, h⟩ := Option.bind_eq_some_iff.mp h
  have hpass := igetPass_panic (s := { s with
    files := (s.files.prele ip).unlocked p ip
    unlinking := update s.unlinking p true }) hpanic h
  rw [hpass]
  simp only [update_self, forall_true_left, hasInode_prele, Ok, hip, Option.some.injEq, forall_eq']

/-- A process step panics exactly where the condition fails. -/
theorem proc_panic {a : Act} (hpanic : s.panic = none) (h : s.step M (.proc a) = some s') :
    s'.panic = none ↔ s.Ok (.proc a) := by
  simp only [step, hpanic, Option.isSome_none, Bool.false_eq_true, if_false] at h
  have hkept : procPanic s.sys a = none → s'.panic = none := by
    intro hproc
    rw [hproc] at h
    obtain ⟨sys, -, rfl⟩ := Option.map_eq_some_iff.mp h
    rfl
  cases a with
  | fork p =>
    -- `fork` and `newproc` look at the same table.
    refine iff_of_true (hkept (if_neg ?_)) trivial
    rintro ⟨-, -, hfound, hfull⟩
    exact hfound (newprocSearch_eq (.inl rfl) (of_decide_eq_true hfull)).symm
  | exit p =>
    by_cases hpanics : runnable s.sys p = true ∧ s.sys.ctx p = .user ∧ exitPanics s.sys = true
    · have hproc : procPanic s.sys (.exit p) = some .outOfSwap := if_pos hpanics
      rw [hproc] at h
      obtain rfl := Option.some.inj h
      obtain ⟨⟨a, mp⟩, hmalloc, -⟩ := (Option.any_eq_true _ _).mp hpanics.2.2
      exact iff_of_false (by simp) ((exitPanics_iff hmalloc).mp hpanics.2.2)
    · have hproc : procPanic s.sys (.exit p) = none := if_neg hpanics
      refine iff_of_true (hkept hproc) ?_
      rw [hproc] at h
      obtain ⟨sys, hstep, -⟩ := Option.map_eq_some_iff.mp h
      obtain ⟨⟨hrun, hctx⟩, hexit⟩ := Option.ite_none_right_eq_some.mp hstep
      obtain ⟨⟨a, mp⟩, hmalloc, -⟩ := Option.bind_eq_some_iff.mp hexit
      by_contra hfree
      exact hpanics ⟨hrun, hctx, (exitPanics_iff hmalloc).mpr hfree⟩
  | resume p | pause p n pri | wait p | abandon p | wakeup n | psignal p | clock | iodone =>
    exact iff_of_true (hkept rfl) trivial

/-- What one step does. -/
theorem step_panic {a : PanicAct κ} (hpanic : s.panic = none) (h : s.step M a = some s') :
    s'.panic = none ↔ s.Ok a := by
  cases a with
  | proc a => exact proc_panic hpanic h
  | file a =>
    simp only [step, hpanic, Option.isSome_none, Bool.false_eq_true, if_false] at h
    exact fileStep_panic hpanic h
  | unlink p pp k ino =>
    simp only [step, hpanic, Option.isSome_none, Bool.false_eq_true, if_false] at h
    exact unlink_panic hpanic h

/-- In every run in which a process exits only when there is a free swap block, and `unlink` goes
through the loop of its `iget` only when the inode is in core or there is a free in-core inode, there is
no panic, and the next step is a panic exactly if it does not meet the condition. `newproc` always has
its entry, and as long as images keep apart there is a swap block exactly if the images that are swapped
out, the zombies and the work in hand leave one. -/
theorem panic_iff_of_reachable (h₀ : s₀.panic = none) (h : Reachable (step M) Ok s₀ s) :
    s.panic = none ∧ (∀ a s', s.step M a = some s' → (s'.panic = none ↔ s.Ok a)) ∧
      (s.sys.Ok → Exclusive s.sys →
        (SwapFree s.sys ↔ ∃ b ∈ swapPool, ∀ o, b ∉ s.sys.table.swapOwn o)) := by
  have hnone : s.panic = none := h.invariant (P := fun s => s.panic = none) h₀
    fun s a s' hs hok hstep => (step_panic hs hstep).mpr hok
  exact ⟨hnone, fun a s' hstep => step_panic hnone hstep, swapFree_iff⟩

/-- A kernel after `main`, with an empty inode table. -/
def booted (sys : Sys) : PanicSys ℕ where
  sys := sys
  files := ⟨fun _ => {}, fun _ _ => {}, fun _ => none, fun _ _ => false, false, fun _ => .idle⟩
  unlinking := fun _ => false
  panic := none

/-- No file system is mounted. -/
def noMounts : MountTable ℕ where
  m_inodp := fun _ => none
  m_dev := fun _ => 0
  m_ref := fun _ => 0
  m_name := fun _ => (0, 0)
  s_ronly := fun _ => false

/-- There is a free swap block and a free in-core inode. -/
def hasRoom (s : PanicSys ℕ) : Bool :=
  s.sys.swapmap.head?.any (fun bp => bp.m_size ≠ 0 ∧ bp.m_addr ≠ 0) && s.files.findFree.isSome

theorem ok_of_hasRoom {s : PanicSys ℕ} (h : hasRoom s = true) (a : PanicAct ℕ) : s.Ok a := by
  obtain ⟨hswap, hslot⟩ := Bool.and_eq_true_iff.mp h
  have hfree : SwapFree s.sys := by
    obtain ⟨bp, hbp, hroom⟩ := (Option.any_eq_true _ _).mp hswap
    exact ⟨bp, hbp, of_decide_eq_true hroom⟩
  have hinode : ∀ dev ino, HasInode s.files dev ino := by
    refine fun dev ino => hasInode_iff.mpr fun hnone => ?_
    rw [hnone.2] at hslot
    simp at hslot
  cases a with
  | proc a =>
    cases a with
    | exit p => exact hfree
    | resume p | pause p n pri | fork p | wait p | abandon p | wakeup n | psignal p | clock | iodone =>
      trivial
  | file a =>
    cases a with
    | run p error => exact fun _ _ _ dev ino _ => hinode dev ino
    | iget p k dev ino | iput p k | plock p k | prele p k | update p | share p k k'
      | modify p k d iupd iacc | abandon p => trivial
  | unlink p pp k ino => exact fun ip _ => hinode _ ino

/-- Process 1 gets the directory with inode 1 and unlinks the entry of inode 5 in it, then makes a
child, which exits. -/
def unlinkAndExit : List (PanicAct ℕ) :=
  [.file (.iget 1 0 0 1), .file (.run 1 false), .unlink 1 0 1 5, .file (.run 1 false),
    .proc (.fork 1), .proc (.exit 2), .proc (.resume 2)]

/-- An `unlink` and an `exit` go through, and the next step is decided by the condition. -/
theorem panic_iff_of_reachable_unlinkAndExit : ∃ sys s, main = some sys ∧
    runSteps (step noMounts) unlinkAndExit (booted sys) = some s ∧ s.panic = none ∧
      ∀ a s', s.step noMounts a = some s' → (s'.panic = none ↔ s.Ok a) := by
  have hrun : (main.bind fun sys =>
      checkedSteps (step noMounts) (fun s _ => hasRoom s) unlinkAndExit (booted sys)).isSome = true := by
    decide +kernel
  obtain ⟨s, hs⟩ := Option.isSome_iff_exists.mp hrun
  obtain ⟨sys, hsys, hs⟩ := Option.bind_eq_some_iff.mp hs
  have hreach := Reachable.refl.of_checkedSteps (fun s a hroom => ok_of_hasRoom hroom a) hs
  obtain ⟨hnone, hstep, -⟩ := panic_iff_of_reachable rfl hreach
  exact ⟨sys, s, hsys, runSteps_of_checkedSteps hs, hnone, hstep⟩

/-- Eight children of process 1 exit. Then it fills the core and the swap area with children, and one of
these exits. -/
def outOfSwap : List Act :=
  [.resume 0] ++ [2, 3, 4, 5, 6, 7, 8, 9].flatMap (fun p => [.fork 1, .exit p, .resume p]) ++
    List.replicate 6 (.fork 1) ++ [.fork 1, .iodone, .resume 16, .resume 0] ++
    [17, 18, 19, 20, 21].flatMap (fun p => [.fork 1, .iodone, .resume p]) ++ [.exit 10]

/-- A run ends in the panic for swap space. -/
theorem outOfSwap_run : ((main.map booted).bind
    (runSteps (step noMounts) (outOfSwap.map .proc))).any (fun s => s.panic = some .outOfSwap) = true := by
  decide +kernel

/-- The panics can be reached. -/
theorem not_panic_none : ¬ ∀ sys (s : PanicSys ℕ), main = some sys →
    Reachable (step noMounts) (fun _ _ => True) (booted sys) s → s.panic = none := by
  intro hall
  obtain ⟨s, hs, hpanic⟩ := (Option.any_eq_true _ _).mp outOfSwap_run
  obtain ⟨s₀, h₀, hrun⟩ := Option.bind_eq_some_iff.mp hs
  obtain ⟨sys, hsys, rfl⟩ := Option.map_eq_some_iff.mp h₀
  have hnone := hall sys s hsys (Reachable.refl.of_runSteps hrun)
  rw [hnone] at hpanic
  simp at hpanic

end PanicSys

end UnixV6
