import UnixV6.Ken.Malloc
import UnixV6.H.Buf
import UnixV6.H.Param

/-!
# Processes, swapping and sleeping (`ken/slp.c`, `ken/text.c`, `ken/sys1.c`)

The part of the process table that decides where a process image lives, with the routines that
move images: `newproc`, `sched`, `xswap`, `exit` and `wait`. A process inside the kernel runs
without being preempted until it calls `sleep`, so each routine is cut at its sleep points: a
definition here is what runs between two of them, and `Ctx` records at which sleep point the
kernel stack of a process stands. `step` lets any runnable process in core run next, so its runs
cover every order in which `swtch` can dispatch.

Left out, because nothing here reads it: priorities, CPU times, user ids, signals other than their
effect of waking a `SWAIT` sleeper, the exit status and times that `wait` hands back, and
`p_textp`, which is never set.
-/

namespace UnixV6

/-- An index into the process table. -/
abbrev Slot : Type := Fin NPROC

/-- First block and number of blocks of the swap area. -/
def swplo : ℕ := 4000
@[inherit_doc swplo] def nswap : ℕ := 872

/-- Disk blocks for `size` pages: `size * (PAGESIZ/512)`. -/
def swapBlocks (size : ℕ) : ℕ := size * 8

/-- Sleep priorities; below 0 a signal cannot disturb the sleep. -/
def PSWP : ℤ := -100
@[inherit_doc PSWP] def PWAIT : ℤ := 40

/-- `p_stat`. -/
inductive PStat
  | null | ssleep | swait | srun | sidl | szomb | sstop
  deriving DecidableEq, Repr

/-- `p_flag`. -/
structure PFlag where
  sload : Bool := false
  ssys : Bool := false
  slock : Bool := false
  sswap : Bool := false
  strc : Bool := false
  swted : Bool := false
  deriving DecidableEq, Repr

/-- What a process sleeps on; `other` stands for buffers, inodes and devices. -/
inductive Chan
  | runin | runout | swapmap | swbuf
  | proc (p : Slot)
  | other (n : ℕ)
  deriving DecidableEq, Repr

/-- `struct proc`. -/
structure Proc where
  p_stat : PStat := .null
  p_flag : PFlag := {}
  p_time : ℕ := 0
  p_pid : ℕ := 0
  p_ppid : ℕ := 0
  p_addr : ℕ := 0
  p_size : ℕ := 0
  p_wchan : Option Chan := none
  deriving DecidableEq, Repr

/-- The two sleeps of `swap`: for `swbuf` to become free, and for the transfer to end. -/
inductive Phase
  | obtain | io
  deriving DecidableEq, Repr

/-- Where the kernel stack of a process stands. -/
inductive Ctx
  /-- In user mode, or in a system call that moves no image. -/
  | user
  /-- `wait`: asleep on its own process table entry. -/
  | waitSleep
  /-- `wait`: reading the zombie `c` from block `f`. -/
  | waitRead (c : Slot) (f : ℕ)
  /-- `exit`: writing the user area to block `a`. -/
  | exitWrite (a : ℕ)
  /-- `newproc`, as the child entry: asleep on `&swapmap`; `rip` is the parent. -/
  | newprocWait (rip : Slot)
  /-- `newproc`, as the child entry: in `xswap(rpp, 0, a2)`. -/
  | newprocSwap (rip : Slot) (a2 : ℕ) (ph : Phase)
  /-- `sched`: about to go to `loop`. -/
  | sched
  /-- `sched`: in `swap(rp->p_addr, a, rp->p_size, B_READ)`. -/
  | schedIn (p1 : Slot) (a : ℕ) (ph : Phase)
  /-- `sched`: in `xswap(rp, 1, a)`. -/
  | schedOut (rp : Slot) (a : ℕ) (ph : Phase)
  deriving DecidableEq, Repr

/-- The flags of `swbuf` the sleeps of `swap` depend on. -/
structure Swbuf where
  b_busy : Bool := false
  b_wanted : Bool := false
  b_done : Bool := false
  deriving DecidableEq, Repr

/-- The kernel state. -/
structure Sys where
  proc : Slot → Proc
  ctx : Slot → Ctx
  coremap : List Map
  swapmap : List Map
  swbuf : Swbuf
  mpid : ℕ
  runin : ℕ
  runout : ℕ

namespace Sys

/-- Change the process table entry `p`. -/
def setProc (s : Sys) (p : Slot) (f : Proc → Proc) : Sys :=
  { s with proc := Function.update s.proc p (f (s.proc p)) }

/-- Record where the kernel stack of `p` stands. -/
def setCtx (s : Sys) (p : Slot) (k : Ctx) : Sys :=
  { s with ctx := Function.update s.ctx p k }

end Sys

/-! ## Sleep and wakeup -/

/-- The assignments of `setrun`. -/
def setrunState (p : Slot) (s : Sys) : Sys :=
  s.setProc p fun rp => { rp with p_wchan := none, p_stat := .srun }

/-- `wakeup(&runout)` with `runout` clear, where `setrun` does not recurse. -/
def wakeupRunout (s : Sys) : Sys :=
  (List.finRange NPROC).foldl
    (fun s p => if (s.proc p).p_wchan = some .runout then setrunState p s else s) s

/-- Set the process running; arrange for it to be swapped in if necessary. -/
def setrun (p : Slot) (s : Sys) : Sys :=
  let s := setrunState p s
  if s.runout ≠ 0 ∧ (s.proc p).p_flag.sload = false then wakeupRunout { s with runout := 0 } else s

/-- Wake up all processes sleeping on `chan`. -/
def wakeup (chan : Chan) (s : Sys) : Sys :=
  (List.finRange NPROC).foldl
    (fun s p => if (s.proc p).p_wchan = some chan then setrun p s else s) s

/-- Give up the processor till a wakeup occurs on `chan`. -/
def sleep (chan : Chan) (pri : ℤ) (p : Slot) (s : Sys) : Sys :=
  if pri ≥ 0 then
    let s := s.setProc p fun rp => { rp with p_wchan := some chan, p_stat := .swait }
    if s.runin ≠ 0 then wakeup .runin { s with runin := 0 } else s
  else
    s.setProc p fun rp => { rp with p_wchan := some chan, p_stat := .ssleep }

/-! ## Swapping -/

/-- `swap` up to the end of its first sleep or the start of its second: wait for `swbuf`, then
start the transfer of block `blkno`. A block off the disk would end in `panic("swap error")`. -/
def swapEnter (p : Slot) (k : Phase → Ctx) (blkno : ℕ) (s : Sys) : Option Sys :=
  if s.swbuf.b_busy then
    some (sleep .swbuf PSWP p
      ({ s with swbuf := { s.swbuf with b_wanted := true } }.setCtx p (k .obtain)))
  else if NRKBLK ≤ blkno then none
  else
    some (sleep .swbuf PSWP p ({ s with swbuf := { b_busy := true } }.setCtx p (k .io)))

/-- The end of `swap`, after `B_DONE`: wake up those who wait for `swbuf` and let go of it. -/
def swapLeave (s : Sys) : Sys :=
  let s := if s.swbuf.b_wanted then wakeup .swbuf s else s
  { s with swbuf := { s.swbuf with b_busy := false, b_wanted := false } }

/-- `xswap` up to its sleeps in `swap`. -/
def xswapEnter (p rp : Slot) (k : Phase → Ctx) (a : ℕ) (s : Sys) : Option Sys :=
  swapEnter p k a (s.setProc rp fun r => { r with p_flag := { r.p_flag with slock := true } })

/-- `xswap` after its sleeps: free the core if `ff`, and record that the image is at block `a`. -/
def xswapLeave (rp : Slot) (ff : Bool) (a : ℕ) (s : Sys) : Option Sys := do
  let s := swapLeave s
  let coremap ←
    (if ff then mfree s.coremap (s.proc rp).p_size (s.proc rp).p_addr else some s.coremap)
  let s := { s with coremap }.setProc rp fun r =>
    { r with p_addr := a, p_flag := { r.p_flag with sload := false, slock := false }, p_time := 0 }
  some (if s.runout ≠ 0 then wakeup .runout { s with runout := 0 } else s)

/-! ## `newproc` -/

/-- `mpid++` until it is positive and the pid of no process; there are more tries than entries. -/
def newPid (used : ℕ → Bool) : ℕ → ℕ → Option ℕ
  | 0, _ => none
  | tries + 1, mpid =>
    if mpid + 1 = 32768 then newPid used tries 0
    else if used (mpid + 1) then newPid used tries (mpid + 1)
    else some (mpid + 1)

/-- The first process table entry with no process. -/
def freeSlot (s : Sys) : Option Slot :=
  (List.finRange NPROC).find? fun p => (s.proc p).p_stat = .null

/-- The loop of `newproc` for swap space, run as the child entry `rpp`. -/
def newprocSwap (rip rpp : Slot) (s : Sys) : Option Sys := do
  let (a2, swapmap) ← malloc s.swapmap (swapBlocks (s.proc rpp).p_size)
  let s := { s with swapmap }
  if a2 = 0 then some (sleep .swapmap PSWP rpp (s.setCtx rpp (.newprocWait rip)))
  else xswapEnter rpp rpp (.newprocSwap rip a2) a2 s

/-- The end of `newproc` for a child that was swapped out. -/
def newprocDone (rip rpp : Slot) (a2 : ℕ) (s : Sys) : Option Sys := do
  let s ← xswapLeave rpp false a2 s
  let s := s.setProc rpp fun r => { r with p_flag := { r.p_flag with sswap := true } }
  let s := s.setProc rip fun r => { r with p_stat := .srun }
  some (s.setCtx rpp .user)

/-- Create a new process, a copy of `rip`. -/
def newproc (rip : Slot) (s : Sys) : Option Sys := do
  let mpid ← newPid (fun m => (List.finRange NPROC).any fun p => (s.proc p).p_pid = m)
    (NPROC + 2) s.mpid
  let rpp ← freeSlot s
  let (a2, coremap) ← malloc s.coremap (s.proc rip).p_size
  let s := ({ s with mpid, coremap }.setProc rpp fun r =>
    { r with
      p_stat := .srun, p_flag := { sload := true }, p_pid := mpid, p_ppid := (s.proc rip).p_pid,
      p_time := 0, p_size := (s.proc rip).p_size }).setCtx rpp .user
  if a2 = 0 then
    let s := s.setProc rip fun r => { r with p_stat := .sidl }
    newprocSwap rip rpp (s.setProc rpp fun r => { r with p_addr := (s.proc rip).p_addr })
  else
    some (s.setProc rpp fun r => { r with p_addr := a2 })

/-- The `fork` system call; with no free entry it fails with `EAGAIN`. -/
def fork (p : Slot) (s : Sys) : Option Sys :=
  if freeSlot s = none then some s else newproc p s

/-! ## `exit` and `wait` -/

/-- `exit` up to the write of the user area. Without swap space it ends in
`panic("out of swap")`. -/
def exit (q : Slot) (s : Sys) : Option Sys := do
  let (a, swapmap) ← malloc s.swapmap 1
  let s := { s with swapmap }.setProc q fun r => { r with p_flag := { r.p_flag with strc := false } }
  if a = 0 then none else some (s.setCtx q (.exitWrite a))

/-- The search of `exit` for the parent of `q`; an orphan becomes a child of process 1. -/
def exitParent (q : Slot) (s : Sys) : Option (Slot × Sys) :=
  match (List.finRange NPROC).find? fun p => (s.proc q).p_ppid = (s.proc p).p_pid with
  | some p => some (p, s)
  | none =>
    let s := s.setProc q fun r => { r with p_ppid := 1 }
    ((List.finRange NPROC).find? fun p => (s.proc p).p_pid = 1).map fun p => (p, s)

/-- `exit` hands a child of `q` to process 1. -/
def disown (q : Slot) (s : Sys) (p : Slot) : Sys :=
  if (s.proc q).p_pid = (s.proc p).p_ppid then
    let s := s.setProc p fun r => { r with p_ppid := 1 }
    if (s.proc p).p_stat = .sstop then setrun p s else s
  else s

/-- `exit` once the user area is written to block `a`: release the core, become a zombie, wake the
parent and dispose of children. -/
def exitDone (q : Slot) (a : ℕ) (s : Sys) : Option Sys := do
  let coremap ← mfree s.coremap (s.proc q).p_size (s.proc q).p_addr
  let s := { s with coremap }.setProc q fun r => { r with p_addr := a, p_stat := .szomb }
  let (p, s) ← exitParent q s
  let s := wakeup (.proc p) (wakeup (.proc 1) s)
  some (((List.finRange NPROC).foldl (disown q) s).setCtx q .user)

/-- The scan of `wait` over the rest of the process table; `f` records that there is a child. -/
def waitScan (q : Slot) : List Slot → Bool → Sys → Sys
  | [], f, s =>
    if f then sleep (.proc q) PWAIT q (s.setCtx q .waitSleep)
    else s.setCtx q .user
  | p :: ps, f, s =>
    if (s.proc p).p_ppid = (s.proc q).p_pid then
      if (s.proc p).p_stat = .szomb then s.setCtx q (.waitRead p (s.proc p).p_addr)
      else if (s.proc p).p_stat = .sstop then
        if (s.proc p).p_flag.swted = false then
          (s.setProc p fun r => { r with p_flag := { r.p_flag with swted := true } }).setCtx q .user
        else
          waitScan q ps true (setrun p
            (s.setProc p fun r => { r with p_flag := { r.p_flag with strc := false, swted := false } }))
      else waitScan q ps true s
    else waitScan q ps f s

/-- `wait` once the zombie's user area is read: free its block and its entry. -/
def waitDone (q c : Slot) (f : ℕ) (s : Sys) : Option Sys := do
  let swapmap ← mfree s.swapmap 1 f
  some (({ s with swapmap }.setProc c fun r =>
    { r with p_stat := .null, p_pid := 0, p_ppid := 0, p_flag := {} }).setCtx q .user)

/-! ## `sched` -/

/-- The body of the search loops of `sched`: the choice so far and its `p_time`, which is -1 before
there is one, against the entry `rp`. -/
def older (c : Proc → Bool) (s : Sys) (best : Option (Slot × ℕ)) (rp : Slot) : Option (Slot × ℕ) :=
  if c (s.proc rp) && best.all fun b => b.2 < (s.proc rp).p_time then
    some (rp, (s.proc rp).p_time)
  else best

/-- The first process of greatest `p_time` among those that satisfy `c`. -/
def oldest (c : Proc → Bool) (s : Sys) : Option (Slot × ℕ) :=
  (List.finRange NPROC).foldl (older c s) none

/-- Ready, but not in core. -/
def wantsIn (r : Proc) : Bool := r.p_stat = .srun && !r.p_flag.sload

/-- In core, and allowed to be swapped. -/
def swappable (r : Proc) : Bool := r.p_flag.sload && !r.p_flag.ssys && !r.p_flag.slock

/-- The process `sched` picks to swap out for one that has been out for `n` seconds: easy core
first, then, if that process is deserving, the oldest process in core. -/
def victim (n : ℕ) (s : Sys) : Option Slot :=
  match (List.finRange NPROC).find? fun p =>
      swappable (s.proc p) && ((s.proc p).p_stat = .swait || (s.proc p).p_stat = .sstop) with
  | some rp => some rp
  | none =>
    if n < 3 then none
    else
      match oldest (fun r => swappable r && (r.p_stat = .srun || r.p_stat = .ssleep)) s with
      | some (rp, n) => if n < 2 then none else some rp
      | none => none

/-- `sloop` of `sched`: sleep until the clock calls for another look. -/
def sloop (s : Sys) : Sys :=
  sleep .runin PSWP 0 ({ s with runin := s.runin + 1 }.setCtx 0 .sched)

/-- `sched` from `loop` to its next sleep. -/
def sched (s : Sys) : Option Sys :=
  match oldest wantsIn s with
  | none => some (sleep .runout PSWP 0 ({ s with runout := s.runout + 1 }.setCtx 0 .sched))
  | some (p1, n) => do
    let (a, coremap) ← malloc s.coremap (s.proc p1).p_size
    let s := { s with coremap }
    if a ≠ 0 then swapEnter 0 (.schedIn p1 a) (s.proc p1).p_addr s
    else
      match victim n s with
      | none => some (sloop s)
      | some rp => do
        let (a, swapmap) ← malloc s.swapmap (swapBlocks (s.proc rp).p_size)
        let s := { s with swapmap }
        if a = 0 then some (sloop s)
        else
          xswapEnter 0 rp (.schedOut rp a) a
            (s.setProc rp fun r => { r with p_flag := { r.p_flag with sload := false } })

/-- `sched` after the transfer of `p1` into core page `a`. -/
def schedInDone (p1 : Slot) (a : ℕ) (s : Sys) : Option Sys := do
  let s := swapLeave s
  let swapmap ← mfree s.swapmap (swapBlocks (s.proc p1).p_size) (s.proc p1).p_addr
  let s := wakeup .swapmap { s with swapmap }
  some (s.setProc p1 fun r =>
    { r with p_addr := a, p_flag := { r.p_flag with sload := true }, p_time := 0 })

/-! ## Steps -/

/-- What can happen next. -/
inductive Act
  /-- `swtch` resumes `p` where its kernel stack stands. -/
  | resume (p : Slot)
  /-- `p` sleeps in the kernel at priority `pri` on something that has to do with no image. -/
  | pause (p : Slot) (n : ℕ) (pri : ℤ)
  /-- `p` calls `fork`, `exit` or `wait`. -/
  | fork (p : Slot)
  | exit (p : Slot)
  | wait (p : Slot)
  /-- A signal ends the sleep of `p` in `wait`, through `resume(u.u_procp, u.u_qsav)`. -/
  | abandon (p : Slot)
  /-- Somebody wakes up the sleepers on a channel that has to do with no image. -/
  | wakeup (n : ℕ)
  /-- `psignal(p, sig)`. -/
  | psignal (p : Slot)
  /-- The once-a-second part of `clock`. -/
  | clock
  /-- The disk interrupt that ends the transfer of `swbuf`: `iodone(&swbuf)`. -/
  | iodone
  deriving DecidableEq, Repr

/-- `swtch` may choose `p`. -/
def runnable (s : Sys) (p : Slot) : Bool :=
  (s.proc p).p_stat = .srun && (s.proc p).p_flag.sload

/-- `swtch` clears `SSWAP` when it resumes a process. -/
def dispatch (p : Slot) (s : Sys) : Sys :=
  s.setProc p fun r => { r with p_flag := { r.p_flag with sswap := false } }

/-- A sleep of `swap` for the end of the transfer: sleep again, or go on with `done`. -/
def swapAwait (p : Slot) (done : Sys → Option Sys) (s : Sys) : Option Sys :=
  if s.swbuf.b_done then done s else some (sleep .swbuf PSWP p s)

/-- What the resumed process `p` does up to its next sleep. -/
def continueCtx (p : Slot) (s : Sys) : Option Sys :=
  match s.ctx p with
  | .user => none
  | .waitSleep => some (waitScan p (List.finRange NPROC) true s)
  | .waitRead c f => waitDone p c f s
  | .exitWrite a => exitDone p a s
  | .newprocWait rip => newprocSwap rip p s
  | .newprocSwap rip a2 .obtain => swapEnter p (.newprocSwap rip a2) a2 s
  | .newprocSwap rip a2 .io => swapAwait p (newprocDone rip p a2) s
  | .sched => sched s
  | .schedIn p1 a .obtain => swapEnter p (.schedIn p1 a) (s.proc p1).p_addr s
  | .schedIn p1 a .io => swapAwait p (fun s => schedInDone p1 a s >>= sched) s
  | .schedOut rp a .obtain => swapEnter p (.schedOut rp a) a s
  | .schedOut rp a .io => swapAwait p (fun s => xswapLeave rp true a s >>= sched) s

/-- A process sleeps elsewhere in the kernel. -/
def mayPause : Ctx → Bool
  | .user | .waitRead _ _ | .exitWrite _ => true
  | _ => false

/-- `p_time` a second later. -/
def agePage (r : Proc) : Proc :=
  if r.p_stat ≠ .null ∧ r.p_time ≠ 127 then { r with p_time := r.p_time + 1 } else r

/-- The loop of `clock` over the process table. -/
def agePages (s : Sys) : Sys :=
  { s with proc := fun p => agePage (s.proc p) }

/-- One step of the system; `none` if the action cannot happen, or if it ends in a panic. -/
def step (s : Sys) : Act → Option Sys
  | .resume p => if runnable s p then continueCtx p (dispatch p s) else none
  | .pause p n pri =>
    if runnable s p ∧ mayPause (s.ctx p) then some (sleep (.other n) pri p s) else none
  | .fork p => if runnable s p ∧ s.ctx p = .user then fork p s else none
  | .exit p => if runnable s p ∧ s.ctx p = .user then exit p s else none
  | .wait p =>
    if runnable s p ∧ s.ctx p = .user then some (waitScan p (List.finRange NPROC) false s) else none
  | .abandon p =>
    if runnable s p ∧ s.ctx p = .waitSleep then some (s.setCtx p .user) else none
  | .wakeup n => some (wakeup (.other n) s)
  | .psignal p => some (if (s.proc p).p_stat = .swait then setrun p s else s)
  | .clock =>
    let s := agePages s
    some (if s.runin ≠ 0 then wakeup .runin { s with runin := 0 } else s)
  | .iodone =>
    if s.swbuf.b_busy ∧ s.swbuf.b_done = false then
      some (wakeup .swbuf { s with swbuf := { s.swbuf with b_done := true, b_wanted := false } })
    else none

/-- The state in which `main` sets up process 0 and makes process 1. -/
def main : Option Sys := do
  let coremap ← mfree (List.replicate 50 { m_size := 0, m_addr := 0 }) 128 USPACE
  let swapmap ← mfree (List.replicate 50 { m_size := 0, m_addr := 0 }) nswap swplo
  newproc 0
    { proc := fun p =>
        if p = 0 then
          { p_stat := .srun, p_flag := { sload := true, ssys := true }, p_addr := 0x10,
            p_size := PSIZE }
        else {}
      ctx := fun p => if p = 0 then .sched else .user
      coremap, swapmap, swbuf := {}, mpid := 0, runin := 0, runout := 0 }

end UnixV6
