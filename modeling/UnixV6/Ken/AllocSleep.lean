import UnixV6.Ken.FreeList
import UnixV6.Lib.Ownership
import UnixV6.Lib.AtomicObject

/-!
# The free list under interleaved calls (`ken/alloc.c`)

`alloc` and `free` give up the processor in `bread`, `getblk` and `bwrite`, and in the loop in which
they wait for `s_flock`. `step` takes a process from one of these places to the next, so a run is
any interleaving that the kernel can produce. The volume is one on which the reads and writes
succeed; `blk bno` is what `bread` finds of it. A process may stay in `getblk` as long as it likes.
-/

open Function

namespace UnixV6

/-- What a process asks of the free list. -/
inductive FlockOp
  | alloc
  | free (bno : ℤ)
  deriving DecidableEq, Repr

/-- Where a process is, at the places where it may give up the processor. -/
inductive FlockPc
  /-- In neither routine. -/
  | user
  /-- In the `while` loop of `alloc`, asleep on `s_flock` or awake. -/
  | alloc_loop (asleep : Bool)
  /-- Reading the rest of the list, with `s_flock` set. -/
  | alloc_bread (bno : ℤ)
  /-- Waiting for the buffer that `alloc` is going to clear. -/
  | alloc_getblk (bno : ℤ)
  /-- In the `while` loop of `free`. -/
  | free_loop (bno : ℤ) (asleep : Bool)
  /-- Waiting for the buffer that is to take the list, with `s_flock` set. -/
  | free_getblk (bno : ℤ)
  /-- Writing the list out, with `s_flock` set. -/
  | free_bwrite (bno : ℤ)
  deriving DecidableEq, Repr

/-- `wakeup(&fp->s_flock)` as one process sees it. -/
def FlockPc.woken : FlockPc → FlockPc
  | .alloc_loop _ => .alloc_loop false
  | .free_loop bno _ => .free_loop bno false
  | c => c

/-- The super block of a volume, its blocks, and the processes that call for them. -/
structure Flock (P : Type*) where
  fp : Filsys
  blk : ℤ → ℕ → ℤ
  /-- The blocks that have been handed out. -/
  used : Finset ℤ
  pc : P → FlockPc

namespace Flock

variable {P : Type*} [DecidableEq P]

/-- What the callers see. The result of `free` is `none`. -/
abbrev Event (P : Type*) := CallEvent P FlockOp (Option Alloc)

def setPc (s : Flock P) (p : P) (c : FlockPc) : Flock P :=
  { s with pc := update s.pc p c }

/-- `s_flock = 0; wakeup(&fp->s_flock)`. -/
def unlock (s : Flock P) : Flock P :=
  { s with
    fp := { s.fp with s_flock := false }
    pc := fun q => (s.pc q).woken }

/-- `alloc` from its `while` loop on. -/
def alloc (s : Flock P) (p : P) : Flock P × List (Event P) :=
  if s.fp.s_flock then (s.setPc p (.alloc_loop true), [])
  else
    match s.fp.pick s.fp.s_nfree.toNat with
    | (fp, none) =>
      (({ s with fp := { fp with s_nfree := 0 } } : Flock P).setPc p .user,
        [.ret p (some .nospace)])
    | (fp, some bno) =>
      if fp.s_nfree ≤ 0 then
        (({ s with fp := { fp with s_flock := true } } : Flock P).setPc p (.alloc_bread bno), [])
      else (({ s with fp := fp } : Flock P).setPc p (.alloc_getblk bno), [])

/-- `free` from its `while` loop on. -/
def free (s : Flock P) (p : P) (bno : ℤ) : Flock P × List (Event P) :=
  if s.fp.s_flock then (s.setPc p (.free_loop bno true), [])
  else if s.fp.badblock bno then (s.setPc p .user, [.ret p none])
  else
    let fp := s.fp.restart
    if fp.s_nfree ≥ 100 then
      (({ s with fp := { fp with s_flock := true } } : Flock P).setPc p (.free_getblk bno), [])
    else (({ s with fp := fp.push bno } : Flock P).setPc p .user, [.ret p none])

/-- A process that is awake goes on to the next place. `junk` is what the buffer of `getblk`
holds. -/
def run (s : Flock P) (p : P) (junk : ℕ → ℤ) : Option (Flock P × List (Event P)) :=
  match s.pc p with
  | .user => none
  | .alloc_loop asleep => if asleep then none else some (s.alloc p)
  | .alloc_bread bno =>
    some ((({ s with fp := s.fp.reload (s.blk bno) } : Flock P).unlock.setPc p
      (.alloc_getblk bno)), [])
  | .alloc_getblk bno =>
    -- the caller has the block from here on
    some (({ s with
      fp := { s.fp with s_fmod := true }
      blk := update s.blk bno fun _ => 0
      used := insert bno s.used } : Flock P).setPc p .user, [.ret p (some (.buf bno))])
  | .free_loop bno asleep => if asleep then none else some (s.free p bno)
  | .free_getblk bno =>
    some (({ s with
      fp := { s.fp with s_nfree := 0 }
      blk := update s.blk bno (s.fp.save junk) } : Flock P).setPc p (.free_bwrite bno), [])
  | .free_bwrite bno =>
    some (({ s with fp := s.fp.push bno } : Flock P).unlock.setPc p .user, [.ret p none])

/-- A call, up to the first place where the process may sleep. A block that is freed is no longer
the caller's. -/
def call (s : Flock P) (p : P) : FlockOp → Flock P × List (Event P)
  | .alloc => (({ s with fp := s.fp.checkCounts } : Flock P).setPc p (.alloc_loop false)).alloc p
  | .free bno =>
    (({ s with
      fp := { s.fp.checkCounts with s_fmod := true }
      used := s.used.erase bno } : Flock P).setPc p (.free_loop bno false)).free p bno

end Flock

/-- What happens next. -/
inductive FlockAct (P : Type*)
  | call (p : P) (o : FlockOp)
  | run (p : P) (junk : ℕ → ℤ)
  /-- The owner of a block changes it. -/
  | write (bno : ℤ) (words : ℕ → ℤ)

namespace Flock

variable {P : Type*} [DecidableEq P]

/-- One step, with what the callers see of it. -/
def step (s : Flock P) : FlockAct P → Option (Flock P × List (Event P))
  | .call p o =>
    if s.pc p = .user then
      let (s', es) := s.call p o
      some (s', .call p o :: es)
    else none
  | .run p junk => s.run p junk
  | .write bno words => some ({ s with blk := update s.blk bno words }, [])

/-- Callers free and write only what has been handed out to them. -/
def Legal (s : Flock P) : FlockAct P → Prop
  | .call _ .alloc => True
  | .call _ (.free bno) => bno ∈ s.used
  | .run _ _ => True
  | .write bno _ => bno ∈ s.used

/-- The steps that the callers may see. -/
def Step (s : Flock P) (es : List (Event P)) (s' : Flock P) : Prop :=
  ∃ a, s.Legal a ∧ s.step a = some (s', es)

end Flock

/-- What `alloc` and `free` do to the list of free blocks when nobody comes in between. -/
def FlockOp.apply : FlockOp → List ℤ → List ℤ × Option Alloc
  | .alloc, [] => ([], some .nospace)
  | .alloc, b :: st => (st, some (.buf b))
  | .free bno, st => (bno :: st, none)

/-! ## What a place means -/

namespace FlockPc

/-- The process has set `s_flock`. -/
def locks : FlockPc → Bool
  | .alloc_bread _ => true
  | .free_getblk _ => true
  | .free_bwrite _ => true
  | _ => false

/-- The process asks for a buffer or waits for a transfer. -/
def buffer : FlockPc → Bool
  | .alloc_bread _ => true
  | .alloc_getblk _ => true
  | .free_getblk _ => true
  | .free_bwrite _ => true
  | _ => false

/-- The process is asleep on `s_flock`. -/
def asleep : FlockPc → Bool
  | .alloc_loop a => a
  | .free_loop _ a => a
  | _ => false

/-- The block that is on its way from the list to a caller, or back. -/
def carries : FlockPc → Option ℤ
  | .alloc_bread bno => some bno
  | .alloc_getblk bno => some bno
  | .free_loop bno _ => some bno
  | .free_getblk bno => some bno
  | .free_bwrite bno => some bno
  | _ => none

/-- Whether the call has had its effect: `alloc` takes a block when it finds it, and `free` gives it
back at the end. -/
def phase : FlockPc → CallPhase FlockOp (Option Alloc)
  | .user => .idle
  | .alloc_loop _ => .asked .alloc
  | .alloc_bread bno => .done (some (.buf bno))
  | .alloc_getblk bno => .done (some (.buf bno))
  | .free_loop bno _ => .asked (.free bno)
  | .free_getblk bno => .asked (.free bno)
  | .free_bwrite bno => .asked (.free bno)

/-- Where the list `st` is while a process has `s_flock` set: in the super block until it has been
saved, and in a block until it has been loaded. -/
def Keeps (fp : Filsys) (blk : ℤ → ℕ → ℤ) (st : List ℤ) : FlockPc → Prop
  | .alloc_bread bno => fp.s_nfree = 0 ∧ FreeStack blk (blk bno 0) (fun i => blk bno (i + 1)) st
  | .free_getblk _ => 100 ≤ fp.s_nfree ∧ FreeStack blk fp.s_nfree fp.s_free st
  | .free_bwrite bno => fp.s_nfree = 0 ∧ FreeStack blk (blk bno 0) (fun i => blk bno (i + 1)) st
  | _ => True

@[simp] theorem locks_woken (c : FlockPc) : c.woken.locks = c.locks := by
  cases c <;> rfl

@[simp] theorem carries_woken (c : FlockPc) : c.woken.carries = c.carries := by
  cases c <;> rfl

@[simp] theorem woken_woken (c : FlockPc) : c.woken.woken = c.woken := by
  cases c <;> rfl

@[simp] theorem phase_woken (c : FlockPc) : c.woken.phase = c.phase := by
  cases c <;> rfl

@[simp] theorem asleep_woken (c : FlockPc) : c.woken.asleep = false := by
  cases c <;> rfl

@[simp] theorem keeps_woken {fp : Filsys} {blk : ℤ → ℕ → ℤ} {st : List ℤ} (c : FlockPc) :
    c.woken.Keeps fp blk st ↔ c.Keeps fp blk st := by
  cases c <;> rfl

theorem keeps_of_not_locks {fp : Filsys} {blk : ℤ → ℕ → ℤ} {st : List ℤ} {c : FlockPc}
    (h : c.locks = false) : c.Keeps fp blk st := by
  cases c with
  | alloc_bread | free_getblk | free_bwrite => cases h
  | user | alloc_loop | alloc_getblk | free_loop => trivial

/-- The list stays where it is if its blocks and the one that is carried keep their words. -/
theorem Keeps.congr {fp fp' : Filsys} {blk blk' : ℤ → ℕ → ℤ} {st : List ℤ} {c : FlockPc}
    (h : c.Keeps fp blk st) (hnfree : fp'.s_nfree = fp.s_nfree) (hfree : fp'.s_free = fp.s_free)
    (hst : ∀ b ∈ st, blk' b = blk b) (hc : ∀ b, c.carries = some b → blk' b = blk b) :
    c.Keeps fp' blk' st := by
  have hstack : ∀ {n free}, FreeStack blk n free st → FreeStack blk' n free st :=
    fun hst' => hst'.congr (fun _ _ => rfl) fun b hb i _ => congrFun (hst b hb) i
  cases c with
  | alloc_bread b =>
    refine ⟨hnfree.trans h.1, ?_⟩
    rw [hc b rfl]
    exact hstack h.2
  | free_bwrite b =>
    refine ⟨hnfree.trans h.1, ?_⟩
    rw [hc b rfl]
    exact hstack h.2
  | free_getblk b =>
    refine ⟨hnfree ▸ h.1, ?_⟩
    rw [hnfree, hfree]
    exact hstack h.2
  | user | alloc_loop | alloc_getblk | free_loop => trivial

end FlockPc

end UnixV6
