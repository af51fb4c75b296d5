import UnixV6.Ken.Slp
import UnixV6.Lib.Ownership
import UnixV6.Lib.Run

/-!
# Custody of core and swap space

What the process table, the two maps and the kernel's half-done work say about who owns which core
page and which swap block, and the transitions between such situations: one for each point at
which a routine takes something from a map, gives it back, or records an image's new place.
Sleeping, priorities and the order in which processes run play no part here.

The owner of a range is either a process image, as its process table entry records it, or a piece
of work in hand (`Errand`) that got the range from a map and has not yet recorded it in an entry.
-/

open Function

namespace UnixV6

variable {ι : Type}

/-- What a process table entry stands for. -/
inductive Kind
  | free | live | idle | zombie
  deriving DecidableEq

/-- The part of a process table entry that says where its image is. -/
structure Image where
  kind : Kind
  sload : Bool
  slock : Bool
  ssys : Bool
  addr : ℕ
  size : ℕ
  pid : ℕ
  ppid : ℕ

/-- The work on images that a process has in hand. -/
inductive Errand (ι : Type)
  | none
  /-- `wait` reads the zombie `c` from block `f`. -/
  | reap (c : ι) (f : ℕ)
  /-- `exit` writes the user area to block `a`. -/
  | bury (a : ℕ)
  /-- A child that denotes the core of its parent `rip` waits for swap space or, once it has got
  it, writes that core to block `a2`. -/
  | copy (rip : ι) (a2 : Option ℕ)
  /-- `sched` reads the image of `p1` into core page `a`. -/
  | swapIn (p1 : ι) (a : ℕ)
  /-- `sched` writes the image of `rp` to block `a`. -/
  | swapOut (rp : ι) (a : ℕ)

/-- The entry still denotes the core of another. -/
@[grind]
def Errand.isCopy : Errand ι → Bool
  | copy _ _ => true
  | _ => false

/-- A process that copies has a child to copy to. -/
@[grind →]
theorem Errand.exists_of_isCopy {e : Errand ι} (h : e.isCopy = true) : ∃ rip a2, e = copy rip a2 := by
  cases e with
  | copy rip a2 => exact ⟨rip, a2, rfl⟩
  | _ => simp [isCopy] at h

/-- The errands of `sched`. -/
@[grind]
def Errand.isSwap : Errand ι → Bool
  | swapIn _ _ | swapOut _ _ => true
  | _ => false

/-- Images, errands, and the free units of the two maps. -/
@[ext]
structure Table (ι : Type) where
  /-- The entry of the kernel itself, whose core is in no map. -/
  sys : ι
  img : ι → Image
  errand : ι → Errand ι
  core : Set ℕ
  swap : Set ℕ

/-- The owners: process images, and work in hand. -/
inductive Owner (ι : Type)
  | image (p : ι)
  | transit (p : ι)

/-- The `n` units from `a` on. -/
abbrev span (a n : ℕ) : Set ℕ := Set.Ico a (a + n)

namespace Table

/-- Entry `p` has an image in core of its own: it is loaded, or being written out. -/
@[grind]
def InCore (t : Table ι) (p : ι) : Prop :=
  p ≠ t.sys ∧ ((t.img p).kind = .live ∨ (t.img p).kind = .idle) ∧ (t.errand p).isCopy = false ∧
    ((t.img p).sload = true ∨ (t.img p).slock = true)

/-- Entry `p` has an image that is on the disk only. -/
@[grind]
def SwappedOut (t : Table ι) (p : ι) : Prop :=
  (t.img p).kind = .live ∧ (t.img p).sload = false ∧ (t.img p).slock = false

/-- The `n` core pages from `a` on belong to an owner. -/
def corePages (t : Table ι) : Owner ι → ℕ → ℕ → Prop
  | .image p, a, n => t.InCore p ∧ a = (t.img p).addr ∧ n = (t.img p).size
  | .transit p, a, n => ∃ p1, t.errand p = .swapIn p1 a ∧ n = (t.img p1).size

/-- The `n` swap blocks from `a` on belong to an owner. -/
def swapArea (t : Table ι) : Owner ι → ℕ → ℕ → Prop
  | .image p, a, n =>
    (t.SwappedOut p ∧ a = (t.img p).addr ∧ n = swapBlocks (t.img p).size) ∨
      ((t.img p).kind = .zombie ∧ a = (t.img p).addr ∧ n = 1)
  | .transit p, a, n =>
    (t.errand p = .bury a ∧ n = 1) ∨
      (∃ rip, t.errand p = .copy rip (some a) ∧ n = swapBlocks (t.img p).size) ∨
      ∃ rp, t.errand p = .swapOut rp a ∧ n = swapBlocks (t.img rp).size

/-- Who owns which core pages. -/
abbrev coreOwn (t : Table ι) : Owner ι → Set ℕ := owned t.corePages

/-- Who owns which swap blocks. -/
abbrev swapOwn (t : Table ι) : Owner ι → Set ℕ := owned t.swapArea

variable [DecidableEq ι]

/-- Change entry `p` and the work it has in hand. -/
def put (t : Table ι) (p : ι) (i : Image) (e : Errand ι) : Table ι :=
  { t with img := update t.img p i, errand := update t.errand p e }

/-- The image of the process that was put, and of the others. -/
@[grind =]
theorem put_img (t : Table ι) (p q : ι) (i : Image) (e : Errand ι) :
    (t.put p i e).img q = if q = p then i else t.img q :=
  update_apply _ _ _ _

/-- The errand of the process that was put, and of the others. -/
@[grind =]
theorem put_errand (t : Table ι) (p q : ι) (i : Image) (e : Errand ι) :
    (t.put p i e).errand q = if q = p then e else t.errand q :=
  update_apply _ _ _ _

/-- The scheduler stays the scheduler. -/
@[grind =]
theorem put_sys (t : Table ι) (p : ι) (i : Image) (e : Errand ι) : (t.put p i e).sys = t.sys :=
  rfl

/-- The entry of a new process. -/
@[grind]
def newImage (t : Table ι) (rip : ι) (a pid : ℕ) : Image where
  kind := .live
  sload := true
  slock := false
  ssys := false
  addr := a
  size := (t.img rip).size
  pid := pid
  ppid := (t.img rip).pid

end Table

variable [DecidableEq ι]

/-- The transitions. -/
inductive Next : Table ι → Table ι → Prop
  /-- `newproc` with core for the child. -/
  | forkCore {t : Table ι} {rip rpp : ι} {a pid : ℕ} (hrip : (t.img rip).kind = .live)
      (hrpp : (t.img rpp).kind = .free) (hpid : ∀ p, (t.img p).pid ≠ pid)
      (ha : span a (t.img rip).size ⊆ t.core) :
      Next t { t.put rpp (t.newImage rip a pid) .none with
        core := t.core \ span a (t.img rip).size }
  /-- `newproc` without core: the parent becomes `SIDL` and the child denotes its core. -/
  | forkCopy {t : Table ι} {rip rpp : ι} {pid : ℕ} (hrip : (t.img rip).kind = .live)
      (hsys : rip ≠ t.sys) (herrand : t.errand rip = .none) (hload : (t.img rip).sload = true)
      (hrpp : (t.img rpp).kind = .free) (hpid : ∀ p, (t.img p).pid ≠ pid) :
      Next t ((t.put rip { t.img rip with kind := .idle } .none).put rpp
        (t.newImage rip (t.img rip).addr pid) (.copy rip none))
  /-- The child has got swap space. -/
  | copyOut {t : Table ι} {p rip : ι} {a2 : ℕ} (herrand : t.errand p = .copy rip none)
      (ha : span a2 (swapBlocks (t.img p).size) ⊆ t.swap) :
      Next t { t.put p { t.img p with slock := true } (.copy rip (some a2)) with
        swap := t.swap \ span a2 (swapBlocks (t.img p).size) }
  /-- The child is written out; parent and child go their own ways. -/
  | copyDone {t : Table ι} {p rip : ι} {a2 : ℕ} (herrand : t.errand p = .copy rip (some a2)) :
      Next t ((t.put p { t.img p with addr := a2, sload := false, slock := false } .none).put rip
        { t.img rip with kind := .live } .none)
  /-- `exit` has got a block for the user area. -/
  | exitStart {t : Table ι} {q : ι} {a : ℕ} (hq : (t.img q).kind = .live) (hsys : q ≠ t.sys)
      (herrand : t.errand q = .none) (ha : span a 1 ⊆ t.swap) :
      Next t { t.put q (t.img q) (.bury a) with swap := t.swap \ span a 1 }
  /-- `exit` has written the user area. Only `q` and its children may change parents. -/
  | exitDone {t : Table ι} {q : ι} {a : ℕ} {ppid : ι → ℕ} (herrand : t.errand q = .bury a)
      (hload : (t.img q).sload = true)
      (hppid : ∀ p, p ≠ q → (t.img p).ppid ≠ (t.img q).pid → ppid p = (t.img p).ppid) :
      Next t
        { t with
          img := fun p => if p = q then { t.img p with kind := .zombie, addr := a, ppid := ppid p }
            else { t.img p with ppid := ppid p }
          errand := update t.errand q .none
          core := t.core ∪ span (t.img q).addr (t.img q).size }
  /-- `wait` has found a zombie. -/
  | reapStart {t : Table ι} {q c : ι} (hq : (t.img q).kind = .live) (hsys : q ≠ t.sys)
      (herrand : t.errand q = .none) (hc : (t.img c).kind = .zombie)
      (hppid : (t.img c).ppid = (t.img q).pid) :
      Next t (t.put q (t.img q) (.reap c (t.img c).addr))
  /-- `wait` frees the zombie's block and entry. -/
  | reapDone {t : Table ι} {q c : ι} {f : ℕ} (herrand : t.errand q = .reap c f) :
      Next t { (t.put q (t.img q) .none).put c { t.img c with
          kind := .free, sload := false, slock := false, ssys := false, pid := 0, ppid := 0 } .none with
        swap := t.swap ∪ span f 1 }
  /-- `sched` has got core for `p1`. -/
  | swapInStart {t : Table ι} {p1 : ι} {a : ℕ} (herrand : t.errand t.sys = .none)
      (hlive : (t.img p1).kind = .live) (hload : (t.img p1).sload = false)
      (ha : span a (t.img p1).size ⊆ t.core) :
      Next t { t.put t.sys (t.img t.sys) (.swapIn p1 a) with
        core := t.core \ span a (t.img p1).size }
  /-- The image of `p1` is read. -/
  | swapInDone {t : Table ι} {p1 : ι} {a : ℕ} (herrand : t.errand t.sys = .swapIn p1 a) :
      Next t { (t.put t.sys (t.img t.sys) .none).put p1 { t.img p1 with addr := a, sload := true }
          (t.errand p1) with
        swap := t.swap ∪ span (t.img p1).addr (swapBlocks (t.img p1).size) }
  /-- `sched` has got swap space for `rp`, which is not a child that waits for swap space. -/
  | swapOutStart {t : Table ι} {rp : ι} {a : ℕ} (herrand : t.errand t.sys = .none)
      (hlive : (t.img rp).kind = .live) (hload : (t.img rp).sload = true)
      (hsys : (t.img rp).ssys = false) (hlock : (t.img rp).slock = false)
      (hcopy : ∀ rip, t.errand rp ≠ .copy rip none)
      (ha : span a (swapBlocks (t.img rp).size) ⊆ t.swap) :
      Next t { (t.put t.sys (t.img t.sys) (.swapOut rp a)).put rp
          { t.img rp with sload := false, slock := true } (t.errand rp) with
        swap := t.swap \ span a (swapBlocks (t.img rp).size) }
  /-- The image of `rp` is written. -/
  | swapOutDone {t : Table ι} {rp : ι} {a : ℕ} (herrand : t.errand t.sys = .swapOut rp a) :
      Next t { (t.put t.sys (t.img t.sys) .none).put rp
          { t.img rp with addr := a, sload := false, slock := false } (t.errand rp) with
        core := t.core ∪ span (t.img rp).addr (t.img rp).size }

/-! ## Control -/

/-- The facts about entries and errands that the transitions rely on. -/
structure Control (t : Table ι) : Prop where
  /-- Every process has the fixed size. -/
  size : ∀ p, (t.img p).kind ≠ .free → (t.img p).size = PSIZE
  /-- Process ids are unique. -/
  pid_inj : ∀ p q, (t.img p).kind ≠ .free → (t.img q).kind ≠ .free →
    (t.img p).pid = (t.img q).pid → p = q
  /-- The kernel's own entry never changes. -/
  system : (t.img t.sys).kind = .live ∧ (t.img t.sys).ssys = true ∧ (t.img t.sys).sload = true
  /-- It runs the scheduler, and nobody else does. -/
  scheduler : ∀ p, t.errand p = .none ∨ (p = t.sys ↔ (t.errand p).isSwap = true)
  /-- Work in hand belongs to a live process. -/
  busy : ∀ p, t.errand p ≠ .none → (t.img p).kind = .live
  /-- A child that denotes its parent's core is loaded, and its parent keeps still. -/
  copying : ∀ p rip a, t.errand p = .copy rip a →
    (t.img p).sload = true ∧ (t.img rip).kind = .idle ∧ (t.img rip).sload = true ∧
      (t.img rip).addr = (t.img p).addr
  /-- No two children denote one parent's core. -/
  parent_inj : ∀ p q rip a a', t.errand p = .copy rip a → t.errand q = .copy rip a' → p = q
  /-- A child that is being written out is locked. -/
  copyOut : ∀ p rip a, t.errand p = .copy rip a → a = none ∨ (t.img p).slock = true
  swapIn : ∀ p1 a, t.errand t.sys = .swapIn p1 a → t.SwappedOut p1
  swapOut : ∀ rp a, t.errand t.sys = .swapOut rp a →
    (t.img rp).kind = .live ∧ (t.img rp).sload = false ∧ (t.img rp).slock = true
  /-- An image that is locked and not loaded is the one being written out. -/
  out : ∀ p, (t.img p).kind = .live → (t.img p).sload = false → (t.img p).slock = true →
    ∃ a, t.errand t.sys = .swapOut p a
  reap : ∀ q c f, t.errand q = .reap c f →
    (t.img c).kind = .zombie ∧ (t.img c).addr = f ∧ (t.img c).ppid = (t.img q).pid

variable {t t' : Table ι}

/-- Every image keeps its size. -/
theorem Control.size_next (hc : Control t) (h : Next t t') :
    ∀ p, (t'.img p).kind ≠ .free → (t'.img p).size = PSIZE := by
  obtain ⟨size, pid_inj, system, scheduler, busy, copying, parent_inj, copyOut, swapIn, swapOut, out,
    reap⟩ := hc
  cases h <;> grind -ring -linarith -lia

/-- No two processes get the same number. -/
theorem Control.pid_inj_next (hc : Control t) (h : Next t t') :
    ∀ p q, (t'.img p).kind ≠ .free → (t'.img q).kind ≠ .free →
      (t'.img p).pid = (t'.img q).pid → p = q := by
  obtain ⟨size, pid_inj, system, scheduler, busy, copying, parent_inj, copyOut, swapIn, swapOut, out,
    reap⟩ := hc
  cases h <;> grind -ring -linarith -lia

/-- The scheduler stays alive and in core. -/
theorem Control.system_next (hc : Control t) (h : Next t t') :
    (t'.img t'.sys).kind = .live ∧ (t'.img t'.sys).ssys = true ∧ (t'.img t'.sys).sload = true := by
  obtain ⟨size, pid_inj, system, scheduler, busy, copying, parent_inj, copyOut, swapIn, swapOut, out,
    reap⟩ := hc
  cases h <;> grind -ring -linarith -lia

/-- Only the scheduler swaps. -/
theorem Control.scheduler_next (hc : Control t) (h : Next t t') :
    ∀ p, t'.errand p = .none ∨ (p = t'.sys ↔ (t'.errand p).isSwap = true) := by
  obtain ⟨size, pid_inj, system, scheduler, busy, copying, parent_inj, copyOut, swapIn, swapOut, out,
    reap⟩ := hc
  cases h <;> grind -ring -linarith -lia

/-- Only processes that are alive have an errand. -/
theorem Control.busy_next (hc : Control t) (h : Next t t') :
    ∀ p, t'.errand p ≠ .none → (t'.img p).kind = .live := by
  obtain ⟨size, pid_inj, system, scheduler, busy, copying, parent_inj, copyOut, swapIn, swapOut, out,
    reap⟩ := hc
  cases h <;> grind -ring -linarith -lia

/-- A copy goes from a process in core to a child in the making. -/
theorem Control.copying_next (hc : Control t) (h : Next t t') :
    ∀ p rip a, t'.errand p = .copy rip a →
      (t'.img p).sload = true ∧ (t'.img rip).kind = .idle ∧ (t'.img rip).sload = true ∧
        (t'.img rip).addr = (t'.img p).addr := by
  obtain ⟨size, pid_inj, system, scheduler, busy, copying, parent_inj, copyOut, swapIn, swapOut, out,
    reap⟩ := hc
  cases h <;> grind -ring -linarith -lia

/-- No child is copied to twice. -/
theorem Control.parent_inj_next (hc : Control t) (h : Next t t') :
    ∀ p q rip a a', t'.errand p = .copy rip a → t'.errand q = .copy rip a' → p = q := by
  obtain ⟨size, pid_inj, system, scheduler, busy, copying, parent_inj, copyOut, swapIn, swapOut, out,
    reap⟩ := hc
  cases h <;> grind -ring -linarith -lia

/-- A copy to the disk is locked. -/
theorem Control.copyOut_next (hc : Control t) (h : Next t t') :
    ∀ p rip a, t'.errand p = .copy rip a → a = none ∨ (t'.img p).slock = true := by
  obtain ⟨size, pid_inj, system, scheduler, busy, copying, parent_inj, copyOut, swapIn, swapOut, out,
    reap⟩ := hc
  cases h <;> grind -ring -linarith -lia

/-- The process that is swapped in is out. -/
theorem Control.swapIn_next (hc : Control t) (h : Next t t') :
    ∀ p1 a, t'.errand t'.sys = .swapIn p1 a → t'.SwappedOut p1 := by
  obtain ⟨size, pid_inj, system, scheduler, busy, copying, parent_inj, copyOut, swapIn, swapOut, out,
    reap⟩ := hc
  cases h <;> grind -ring -linarith -lia

/-- The process that is swapped out is locked. -/
theorem Control.swapOut_next (hc : Control t) (h : Next t t') :
    ∀ rp a, t'.errand t'.sys = .swapOut rp a →
      (t'.img rp).kind = .live ∧ (t'.img rp).sload = false ∧ (t'.img rp).slock = true := by
  obtain ⟨size, pid_inj, system, scheduler, busy, copying, parent_inj, copyOut, swapIn, swapOut, out,
    reap⟩ := hc
  cases h <;> grind -ring -linarith -lia

/-- A process that is out and locked is being swapped out. -/
theorem Control.out_next (hc : Control t) (h : Next t t') :
    ∀ p, (t'.img p).kind = .live → (t'.img p).sload = false → (t'.img p).slock = true →
      ∃ a, t'.errand t'.sys = .swapOut p a := by
  obtain ⟨size, pid_inj, system, scheduler, busy, copying, parent_inj, copyOut, swapIn, swapOut, out,
    reap⟩ := hc
  cases h <;> grind -ring -linarith -lia

/-- A process that is reaped is a zombie, and a child of the one that reaps it. -/
theorem Control.reap_next (hc : Control t) (h : Next t t') :
    ∀ q c f, t'.errand q = .reap c f →
      (t'.img c).kind = .zombie ∧ (t'.img c).addr = f ∧ (t'.img c).ppid = (t'.img q).pid := by
  obtain ⟨size, pid_inj, system, scheduler, busy, copying, parent_inj, copyOut, swapIn, swapOut, out,
    reap⟩ := hc
  cases h <;> grind -ring -linarith -lia

theorem Control.next (hc : Control t) (h : Next t t') : Control t' :=
  ⟨hc.size_next h, hc.pid_inj_next h, hc.system_next h, hc.scheduler_next h, hc.busy_next h,
    hc.copying_next h, hc.parent_inj_next h, hc.copyOut_next h, hc.swapIn_next h, hc.swapOut_next h,
    hc.out_next h, hc.reap_next h⟩

/-! ## Ownership -/

attribute [local grind] Table.corePages Table.swapArea

/-- What the core of an owner depends on is the same in both tables. -/
@[grind]
def SameCore (t t' : Table ι) : Owner ι → Prop
  | .image p =>
    (t'.InCore p ↔ t.InCore p) ∧
      (t.InCore p → (t'.img p).addr = (t.img p).addr ∧ (t'.img p).size = (t.img p).size)
  | .transit p => ∀ p1 a,
    (t'.errand p = .swapIn p1 a ↔ t.errand p = .swapIn p1 a) ∧
      (t.errand p = .swapIn p1 a → (t'.img p1).size = (t.img p1).size)

omit [DecidableEq ι] in
/-- What a process has of core, when nothing of that changes. -/
theorem SameCore.coreOwn {k : Owner ι} (h : SameCore t t' k) : t'.coreOwn k = t.coreOwn k :=
  owned_congr fun a n => by cases k <;> grind -ring -linarith -lia

/-- Every page of core is in one place after a step. -/
theorem coreOwn_next {total : Set ℕ} (hc : Control t) (ho : Ownership t.coreOwn t.core total)
    (h : Next t t') : Ownership t'.coreOwn t'.core total := by
  obtain ⟨-, -, system, scheduler, busy, copying, -, -, swapIn, swapOut, -, reap⟩ := hc
  cases h with
  | @forkCore rip rpp a pid hrip hrpp hpid ha =>
    -- the pages are those of the new image
    refine ho.alloc (i := .image rpp) ha (owned_empty ?_) (owned_eq ?_) ?_
    · grind -ring -linarith -lia
    · grind -ring -linarith -lia
    · intro k hk
      refine SameCore.coreOwn ?_
      cases k <;> grind -ring -linarith -lia
  | @forkCopy rip rpp pid hrip hsys herrand hload hrpp hpid =>
    refine ho.congr fun k => SameCore.coreOwn ?_
    cases k <;> grind -ring -linarith -lia
  | @copyOut p rip a2 herrand ha =>
    refine ho.congr fun k => SameCore.coreOwn ?_
    cases k <;> grind -ring -linarith -lia
  | @copyDone p rip a2 herrand =>
    -- the core was the parent's all the time, and stays so
    have hp : (t.img p).kind = .live := busy p (by simp [herrand])
    have hrip : (t.img rip).kind = .idle := (copying p rip _ herrand).2.1
    refine ho.congr fun k => SameCore.coreOwn ?_
    cases k <;> grind -ring -linarith -lia
  | @exitStart q a hq hsys herrand ha =>
    refine ho.congr fun k => SameCore.coreOwn ?_
    cases k <;> grind -ring -linarith -lia
  | @exitDone q a ppid herrand hload hppid =>
    -- a zombie has no core
    have hown : t.coreOwn (.image q) = span (t.img q).addr (t.img q).size :=
      owned_eq (by grind -ring -linarith -lia)
    rw [← hown]
    refine ho.release (i := .image q) (owned_empty ?_) ?_
    · grind -ring -linarith -lia
    · intro k hk
      refine SameCore.coreOwn ?_
      cases k <;> grind -ring -linarith -lia
  | @reapStart q c hq hsys herrand hc hppid =>
    refine ho.congr fun k => SameCore.coreOwn ?_
    cases k <;> grind -ring -linarith -lia
  | @reapDone q c f herrand =>
    have hq : (t.img q).kind = .live := busy q (by simp [herrand])
    have hc : (t.img c).kind = .zombie := (reap q c f herrand).1
    refine ho.congr fun k => SameCore.coreOwn ?_
    cases k <;> grind -ring -linarith -lia
  | @swapInStart p1 a herrand hlive hload ha =>
    -- the pages are in transit until the image has been read
    refine ho.alloc (i := .transit t.sys) ha (owned_empty ?_) (owned_eq ?_) ?_
    · grind -ring -linarith -lia
    · grind -ring -linarith -lia
    · intro k hk
      refine SameCore.coreOwn ?_
      cases k <;> grind -ring -linarith -lia
  | @swapInDone p1 a herrand =>
    -- the image takes over what was in transit
    have hown : t.coreOwn (.transit t.sys) = span a (t.img p1).size :=
      owned_eq (by grind -ring -linarith -lia)
    refine ho.transfer (i := .transit t.sys) (j := .image p1) (by simp) (owned_empty ?_)
      (owned_empty ?_) (hown ▸ owned_eq ?_) ?_
    · grind -ring -linarith -lia
    · grind -ring -linarith -lia
    · grind -ring -linarith -lia
    · intro k hk hk'
      refine SameCore.coreOwn ?_
      cases k <;> grind -ring -linarith -lia
  | @swapOutStart rp a herrand hlive hload hsys hlock hcopy ha =>
    refine ho.congr fun k => SameCore.coreOwn ?_
    cases k <;> grind -ring -linarith -lia
  | @swapOutDone rp a herrand =>
    -- the image is on the disk now, and its core is free
    have hown : t.coreOwn (.image rp) = span (t.img rp).addr (t.img rp).size :=
      owned_eq (by grind -ring -linarith -lia)
    rw [← hown]
    refine ho.release (i := .image rp) (owned_empty ?_) ?_
    · grind -ring -linarith -lia
    · intro k hk
      refine SameCore.coreOwn ?_
      cases k <;> grind -ring -linarith -lia

/-- What the swap blocks of an owner depend on is the same in both tables. -/
@[grind]
def SameSwap (t t' : Table ι) : Owner ι → Prop
  | .image p =>
    (t'.SwappedOut p ↔ t.SwappedOut p) ∧ ((t'.img p).kind = .zombie ↔ (t.img p).kind = .zombie) ∧
      (t.SwappedOut p ∨ (t.img p).kind = .zombie →
        (t'.img p).addr = (t.img p).addr ∧ (t'.img p).size = (t.img p).size)
  | .transit p =>
    (∀ a, t'.errand p = .bury a ↔ t.errand p = .bury a) ∧
      (∀ rip a, (t'.errand p = .copy rip (some a) ↔ t.errand p = .copy rip (some a)) ∧
        (t.errand p = .copy rip (some a) → (t'.img p).size = (t.img p).size)) ∧
      ∀ rp a, (t'.errand p = .swapOut rp a ↔ t.errand p = .swapOut rp a) ∧
        (t.errand p = .swapOut rp a → (t'.img rp).size = (t.img rp).size)

omit [DecidableEq ι] in
/-- What a process has of the swap area, when nothing of that changes. -/
theorem SameSwap.swapOwn {k : Owner ι} (h : SameSwap t t' k) : t'.swapOwn k = t.swapOwn k :=
  owned_congr fun a n => by cases k <;> grind -ring -linarith -lia

/-- Every swap block is in one place after a step. -/
theorem swapOwn_next {total : Set ℕ} (hc : Control t) (ho : Ownership t.swapOwn t.swap total)
    (h : Next t t') : Ownership t'.swapOwn t'.swap total := by
  obtain ⟨-, -, system, scheduler, busy, copying, -, -, swapIn, swapOut, -, reap⟩ := hc
  cases h with
  | @forkCore rip rpp a pid hrip hrpp hpid ha =>
    refine ho.congr fun k => SameSwap.swapOwn ?_
    cases k <;> grind -ring -linarith -lia
  | @forkCopy rip rpp pid hrip hsys herrand hload hrpp hpid =>
    refine ho.congr fun k => SameSwap.swapOwn ?_
    cases k <;> grind -ring -linarith -lia
  | @copyOut p rip a2 herrand ha =>
    -- the blocks are in transit until the child has been written
    refine ho.alloc (i := .transit p) ha (owned_empty ?_) (owned_eq ?_) ?_
    · grind -ring -linarith -lia
    · grind -ring -linarith -lia
    · intro k hk
      refine SameSwap.swapOwn ?_
      cases k <;> grind -ring -linarith -lia
  | @copyDone p rip a2 herrand =>
    -- the child takes over what was in transit
    have hp : (t.img p).kind = .live := busy p (by simp [herrand])
    have hrip : (t.img rip).kind = .idle := (copying p rip _ herrand).2.1
    have hown : t.swapOwn (.transit p) = span a2 (swapBlocks (t.img p).size) :=
      owned_eq (by grind -ring -linarith -lia)
    refine ho.transfer (i := .transit p) (j := .image p) (by simp) (owned_empty ?_)
      (owned_empty ?_) (hown ▸ owned_eq ?_) ?_
    · grind -ring -linarith -lia
    · grind -ring -linarith -lia
    · grind -ring -linarith -lia
    · intro k hk hk'
      refine SameSwap.swapOwn ?_
      cases k <;> grind -ring -linarith -lia
  | @exitStart q a hq hsys herrand ha =>
    -- the block is in transit until the user area has been written
    refine ho.alloc (i := .transit q) ha (owned_empty ?_) (owned_eq ?_) ?_
    · grind -ring -linarith -lia
    · grind -ring -linarith -lia
    · intro k hk
      refine SameSwap.swapOwn ?_
      cases k <;> grind -ring -linarith -lia
  | @exitDone q a ppid herrand hload hppid =>
    -- the zombie takes over what was in transit
    have hown : t.swapOwn (.transit q) = span a 1 := owned_eq (by grind -ring -linarith -lia)
    refine ho.transfer (i := .transit q) (j := .image q) (by simp) (owned_empty ?_)
      (owned_empty ?_) (hown ▸ owned_eq ?_) ?_
    · grind -ring -linarith -lia
    · grind -ring -linarith -lia
    · grind -ring -linarith -lia
    · intro k hk hk'
      refine SameSwap.swapOwn ?_
      cases k <;> grind -ring -linarith -lia
  | @reapStart q c hq hsys herrand hc hppid =>
    refine ho.congr fun k => SameSwap.swapOwn ?_
    cases k <;> grind -ring -linarith -lia
  | @reapDone q c f herrand =>
    -- the zombie goes, and its block is free
    have hq : (t.img q).kind = .live := busy q (by simp [herrand])
    have hc : (t.img c).kind = .zombie := (reap q c f herrand).1
    have hown : t.swapOwn (.image c) = span f 1 := owned_eq (by grind -ring -linarith -lia)
    rw [← hown]
    refine ho.release (i := .image c) (owned_empty ?_) ?_
    · grind -ring -linarith -lia
    · intro k hk
      refine SameSwap.swapOwn ?_
      cases k <;> grind -ring -linarith -lia
  | @swapInStart p1 a herrand hlive hload ha =>
    refine ho.congr fun k => SameSwap.swapOwn ?_
    cases k <;> grind -ring -linarith -lia
  | @swapInDone p1 a herrand =>
    -- the image is in core now, and its blocks are free
    have hp1 := swapIn p1 a herrand
    have hown : t.swapOwn (.image p1) = span (t.img p1).addr (swapBlocks (t.img p1).size) :=
      owned_eq (by grind -ring -linarith -lia)
    rw [← hown]
    refine ho.release (i := .image p1) (owned_empty ?_) ?_
    · grind -ring -linarith -lia
    · intro k hk
      refine SameSwap.swapOwn ?_
      cases k <;> grind -ring -linarith -lia
  | @swapOutStart rp a herrand hlive hload hsys hlock hcopy ha =>
    -- the blocks are in transit until the image has been written
    refine ho.alloc (i := .transit t.sys) ha (owned_empty ?_) (owned_eq ?_) ?_
    · grind -ring -linarith -lia
    · grind -ring -linarith -lia
    · intro k hk
      refine SameSwap.swapOwn ?_
      cases k <;> grind -ring -linarith -lia
  | @swapOutDone rp a herrand =>
    -- the image takes over what was in transit
    have hrp := swapOut rp a herrand
    have hown : t.swapOwn (.transit t.sys) = span a (swapBlocks (t.img rp).size) :=
      owned_eq (by grind -ring -linarith -lia)
    refine ho.transfer (i := .transit t.sys) (j := .image rp) (by simp) (owned_empty ?_)
      (owned_empty ?_) (hown ▸ owned_eq ?_) ?_
    · grind -ring -linarith -lia
    · grind -ring -linarith -lia
    · grind -ring -linarith -lia
    · intro k hk hk'
      refine SameSwap.swapOwn ?_
      cases k <;> grind -ring -linarith -lia

/-! ## The invariant -/

/-- Core pages and swap blocks that the maps get at boot. -/
def corePool : Set ℕ := span USPACE 128
@[inherit_doc corePool] def swapPool : Set ℕ := span swplo nswap

/-- Everything handed to the maps is free or has exactly one owner. -/
structure Custody (t : Table ι) : Prop where
  control : Control t
  core : Ownership t.coreOwn t.core corePool
  swap : Ownership t.swapOwn t.swap swapPool

theorem Custody.next (h : Custody t) (hn : Next t t') : Custody t' where
  control := h.control.next hn
  core := coreOwn_next h.control h.core hn
  swap := swapOwn_next h.control h.swap hn

theorem Custody.run (h : Custody t) (hn : Relation.ReflTransGen Next t t') : Custody t' := by
  induction hn with
  | refl => exact h
  | tail _ hn ih => exact ih.next hn

end UnixV6
