import UnixV6.Ken.Slp
import UnixV6.Lib.Run

/-!
# Process numbers and signals (`ken/sig.c`, `ken/sys1.c`, `ken/sys4.c`, `newproc` of `ken/slp.c`)

The part of the process table and of the `u` areas that decides who is whose child and which signals
are pending: `fork`, `exit`, `wait`, `kill`, `ssig`, `signal`, `psignal`, `issig` and `psig`, with
`exec`, `setuid` and `klopen` as far as they change the same fields. Memory and scheduling are left
to the other modules: here any process that can run may run next, a process may go to sleep and be
woken inside any other system call, and `malloc(swapmap, 1)` hands out some block that is not in
use. Tracing is not compiled, so `SSTOP` does not occur.

`u_signal` is read and written at whatever index a signal number makes. The words outside `0..19`
are the neighbours of the table in the `u` area, which other code changes at any time; among them are
`u_procp`, `u_uid` and `u_arg[0]`. A process that has stored 0 over its `u_procp` goes on with the
words at the kernel address 0 in place of its proc entry. Of what it does then only `fork` and `kill`
are modelled.
-/

open Function

namespace UnixV6

/-- Number of signals. -/
def NSIG : ℤ := 20

/-- Signal numbers. -/
def SIGINT : ℤ := 2
@[inherit_doc SIGINT] def SIGQIT : ℤ := 3
@[inherit_doc SIGINT] def SIGINS : ℤ := 4
@[inherit_doc SIGINT] def SIGTRC : ℤ := 5
@[inherit_doc SIGINT] def SIGKIL : ℤ := 9
@[inherit_doc SIGINT] def SIGPIPE : ℤ := 13

/-- The indices at which `u_signal` is `u_procp`, `u_uid` with `u_gid`, and `u_arg[0]`: the offset of
`u_signal` in the `u` area is 176, theirs are 34, 30 and 110, and an `int` has two bytes. -/
def U_PROCP : ℤ := -71
@[inherit_doc U_PROCP] def U_UID : ℤ := -73
@[inherit_doc U_PROCP] def U_ARG : ℤ := -33

/-- An `int` stored in a `char`. -/
def toChar (n : ℤ) : ℤ := n.bmod 256

/-- Where a process stands. -/
inductive ProcPc
  /-- In user mode, or in some other system call. -/
  | user
  /-- In `psig`, on its way to `exit` with this word; `core` may sleep. -/
  | dumping (w : ℤ)
  /-- In `exit`, before it has a swap block. -/
  | closing
  /-- In `exit`, with its swap block. -/
  | writing (a : ℕ)
  /-- It has left `exit` through `swtch`. -/
  | dead
  /-- Asleep in `wait`, or woken there. -/
  | waitSleep
  /-- In `wait`, reading the swap block of this child. -/
  | reaping (c : Slot) (pid : ℤ)
  deriving DecidableEq, Repr

/-- A stage of `exit`. -/
def ProcPc.exits : ProcPc → Bool
  | .dumping _ | .closing | .writing _ | .dead => true
  | _ => false

/-- How a call of `wait` ends. -/
inductive WaitResult
  | child (pid w : ℤ)
  | echild
  | eintr
  deriving DecidableEq, Repr

/-- What a `NULL` pointer to a proc entry finds in the kernel's memory. -/
structure NullProc where
  p_uid : ℤ
  p_ttyp : ℤ
  p_pid : ℤ
  deriving DecidableEq, Repr

/-- The process table with the parts of the `u` areas that matter. -/
structure ProcSys where
  p_stat : Slot → PStat
  p_sig : Slot → ℤ
  p_uid : Slot → ℤ
  p_ttyp : Slot → ℤ
  p_pid : Slot → ℤ
  p_ppid : Slot → ℤ
  /-- The swap block of a zombie. -/
  p_addr : Slot → ℕ
  mpid : ℤ
  nul : NullProc
  /-- The pointer to the proc entry; `none` is `NULL`. -/
  u_procp : Slot → Option Slot
  u_uid : Slot → ℤ
  u_signal : Slot → ℤ → ℤ
  /-- `u_arg[0]`. -/
  u_arg0 : Slot → ℤ
  /-- `u_arg[0]` in the copy of a `u` area that a swap block holds, as `bread` finds it. -/
  blk : ℕ → ℤ
  pc : Slot → ProcPc
  /-- A signal has been sent to the process since it was made. -/
  sent : Slot → Bool
  /-- `SIGKIL` has been posted to the process outside of `exit`, and it has not run `psig` since. -/
  killed : Slot → Bool
  /-- The word of the last call of `exit`. -/
  exited : Slot → ℤ
  /-- The process that made it. -/
  creator : Slot → ℤ
  /-- That process has become a zombie. -/
  orphan : Slot → Bool
  /-- The calls of `wait` that are over, with the caller. -/
  waits : List (Slot × WaitResult)

namespace ProcSys

def goto (s : ProcSys) (p : Slot) (k : ProcPc) : ProcSys :=
  { s with pc := update s.pc p k }

/-- The process is in `exit`. -/
def exiting (s : ProcSys) (p : Slot) : Bool := (s.pc p).exits

/-! ## Signals -/

/-- Send the specified signal to the specified process. -/
def psignal (s : ProcSys) (p : Slot) (sig : ℤ) : ProcSys :=
  if sig ≥ NSIG then s
  else
    { s with
      p_sig := update s.p_sig p (if s.p_sig p ≠ SIGKIL then toChar sig else s.p_sig p)
      -- A process in an interruptible sleep is set running.
      p_stat := update s.p_stat p (if s.p_stat p = .swait then .srun else s.p_stat p)
      sent := update s.sent p true
      killed := update s.killed p (s.killed p ||
        (toChar sig = SIGKIL && s.p_stat p ≠ .null && !s.exiting p)) }

/-- `psignal` for every selected slot of the table. -/
def psignals (s : ProcSys) (sel : ProcSys → Slot → Bool) (sig : ℤ) : ProcSys :=
  (List.finRange NPROC).foldl (fun s p => if sel s p then s.psignal p sig else s) s

/-- Send the specified signal to all processes with `tp` as their controlling teletype. -/
def signal (s : ProcSys) (tp sig : ℤ) : ProcSys :=
  s.psignals (fun s p => s.p_ttyp p = tp) sig

/-- `u.u_procp->p_uid`, and the same of other fields. -/
def procUid (s : ProcSys) (p : Slot) : ℤ := (s.u_procp p).elim s.nul.p_uid s.p_uid
@[inherit_doc procUid] def procTtyp (s : ProcSys) (p : Slot) : ℤ :=
  (s.u_procp p).elim s.nul.p_ttyp s.p_ttyp
@[inherit_doc procUid] def procPid (s : ProcSys) (p : Slot) : ℤ :=
  (s.u_procp p).elim s.nul.p_pid s.p_pid

/-- Whether `kill(a, sig)`, called by `q`, passes the tests of the loop for `p`. -/
def killTarget (q : Slot) (a : ℤ) (s : ProcSys) (p : Slot) : Bool :=
  some p ≠ s.u_procp q ∧ (a = 0 ∨ s.p_pid p = a) ∧ (a = 0 → s.p_ttyp p = s.procTtyp q ∧ 1 < p) ∧
    (s.u_uid q = 0 ∨ s.u_uid q = s.p_uid p)

/-- The `kill` system call, and whether it succeeds. -/
def kill (s : ProcSys) (q : Slot) (a sig : ℤ) : ProcSys × Bool :=
  (s.psignals (killTarget q a) sig, (List.finRange NPROC).any (killTarget q a s))

/-- `kill` posts the signal to every target. -/
theorem kill_fst (s : ProcSys) (q : Slot) (a sig : ℤ) :
    (s.kill q a sig).1 = s.psignals (killTarget q a) sig := by
  simp only [kill]

/-- `u_signal[n]` is 0. -/
def sigDfl (s : ProcSys) (p : Slot) (n : ℤ) : Bool :=
  if n = U_PROCP then (s.u_procp p).isNone
  else if n = U_ARG then s.u_arg0 p = 0
  else s.u_signal p n = 0

/-- `u_signal[n]` is 1; a pointer never is. -/
def sigIgn (s : ProcSys) (p : Slot) (n : ℤ) : Bool :=
  if n = U_PROCP then false
  else if n = U_ARG then s.u_arg0 p = 1
  else s.u_signal p n = 1

/-- `u_signal[n] = 0`, and whatever else lies there. -/
def sigClear (s : ProcSys) (p : Slot) (n : ℤ) : ProcSys :=
  { s with
    u_procp := if n = U_PROCP then update s.u_procp p none else s.u_procp
    u_uid := if n = U_UID then update s.u_uid p 0 else s.u_uid
    u_arg0 := if n = U_ARG then update s.u_arg0 p 0 else s.u_arg0
    u_signal := update s.u_signal p (update (s.u_signal p) n 0) }

/-- Whether the process has a signal to process. -/
def issig (s : ProcSys) (p : Slot) : Bool :=
  s.p_sig p ≠ 0 ∧ !s.sigIgn p (s.p_sig p)

/-- Perform the action specified by the current signal. The default is `exit`, with a word made from
`R0`, the number and the outcome of `core`. -/
def psig (s : ProcSys) (p : Slot) (w : ℤ) : ProcSys :=
  let n := s.p_sig p
  let s := { s with
    p_sig := update s.p_sig p 0
    killed := update s.killed p false }
  if !s.sigDfl p n then
    if n ≠ SIGINS ∧ n ≠ SIGTRC then (s.sigClear p n).goto p .user else s.goto p .user
  else s.goto p (.dumping w)

/-- The `signal` system call. -/
def ssig (s : ProcSys) (p : Slot) (a v : ℤ) : ProcSys :=
  if a ≤ 0 ∨ a ≥ NSIG ∨ a = SIGKIL then s
  else
    { s with
      u_signal := update s.u_signal p (update (s.u_signal p) a v)
      p_sig := if s.p_sig p = a then update s.p_sig p 0 else s.p_sig }

/-- The end of `exec`: clear sigs. -/
def exec (s : ProcSys) (p : Slot) : ProcSys :=
  { s with u_signal := update s.u_signal p fun n =>
      if 0 ≤ n ∧ n < NSIG ∧ s.u_signal p n ≠ 1 then 0 else s.u_signal p n }

/-! ## Making a process -/

/-- The loop over `mpid` in `newproc`: the next number that no slot has. -/
def nextPid (used : ℤ → Bool) : ℕ → ℤ → Option ℤ
  | 0, _ => none
  | fuel + 1, mpid =>
    let mpid := (mpid + 1).bmod 65536
    if mpid < 0 then nextPid used fuel 0
    else if used mpid then nextPid used fuel mpid
    else some mpid

def pidUsed (s : ProcSys) (pid : ℤ) : Bool :=
  (List.finRange NPROC).any fun p => s.p_pid p = pid

/-- The slot that `fork` and `newproc` find. -/
def freeSlot (s : ProcSys) : Option Slot :=
  (List.finRange NPROC).find? fun p => s.p_stat p = .null

/-- Create the process `c`; `p_sig` keeps what the slot has. The numbers run through once before
every retry has been made. Without a proc entry to copy from, the image of the new process is
unknown, its `u` area included. -/
def newproc (s : ProcSys) (p c : Slot) : Option ProcSys :=
  (nextPid s.pidUsed (NPROC + 2) s.mpid).map fun pid =>
    { s with
      mpid := pid
      p_stat := update s.p_stat c .srun
      p_uid := update s.p_uid c (s.procUid p)
      p_ttyp := update s.p_ttyp c (s.procTtyp p)
      p_pid := update s.p_pid c pid
      p_ppid := update s.p_ppid c (s.procPid p)
      -- The `u` area is copied with the image.
      u_procp := update s.u_procp c ((s.u_procp p).map fun _ => c)
      u_uid := update s.u_uid c (s.u_uid p)
      u_signal := update s.u_signal c (s.u_signal p)
      u_arg0 := update s.u_arg0 c (s.u_arg0 p)
      sent := update s.sent c false
      killed := update s.killed c false
      creator := update s.creator c (s.p_pid p)
      orphan := update s.orphan c false }.goto c .user

/-- The `fork` system call; without a free slot it fails with `EAGAIN`. -/
def fork (s : ProcSys) (p : Slot) : Option ProcSys :=
  match s.freeSlot with
  | none => some s
  | some c => s.newproc p c

/-! ## The end of a process -/

/-- The first part of `exit`. -/
def exit (s : ProcSys) (p : Slot) (w : ℤ) : ProcSys :=
  { s with
    u_signal := update s.u_signal p fun n => if 0 ≤ n ∧ n < NSIG then 1 else s.u_signal p n
    u_arg0 := update s.u_arg0 p w
    exited := update s.exited p w }.goto p .closing

/-- A swap block that no process holds. -/
def freeBlk (s : ProcSys) (a : ℕ) : Prop :=
  ∀ q, (s.p_stat q = .szomb → s.p_addr q ≠ a) ∧ s.pc q ≠ .writing a

instance (s : ProcSys) (a : ℕ) : Decidable (s.freeBlk a) :=
  inferInstanceAs (Decidable (∀ q, (s.p_stat q = .szomb → s.p_addr q ≠ a) ∧ s.pc q ≠ .writing a))

/-- `wakeup(&proc[p])`: only the process itself sleeps on its entry. -/
def wakeProc (s : ProcSys) (p : Slot) : ProcSys :=
  { s with
    p_stat :=
      if s.pc p = .waitSleep ∧ s.p_stat p = .swait then update s.p_stat p .srun else s.p_stat }

/-- The first slot whose number is the parent's. -/
def parent (s : ProcSys) (q : Slot) : Option Slot :=
  (List.finRange NPROC).find? fun p => s.p_pid p = s.p_ppid q

/-- Hand the children over to process 1. -/
def handOver (s : ProcSys) (q : Slot) : ProcSys :=
  { s with
    p_ppid := fun p => if s.p_ppid p = s.p_pid q then 1 else s.p_ppid p
    orphan := fun p => if s.p_ppid p = s.p_pid q then true else s.orphan p }

/-- Wake up parent and init processes, and dispose of children. -/
def leave (s : ProcSys) (q r : Slot) : ProcSys :=
  (((s.wakeProc 1).wakeProc r).handOver q).goto q .dead

/-- The second part of `exit`: the `u` area goes to the swap block and the slot becomes a zombie.
Without a parent the process becomes a child of process 1. -/
def exitDone (s : ProcSys) (q : Slot) (a : ℕ) : Option ProcSys :=
  let s := { s with
    blk := update s.blk a (s.u_arg0 q)
    p_addr := update s.p_addr q a
    p_stat := update s.p_stat q .szomb }
  match s.parent q with
  | some r => some (s.leave q r)
  | none =>
    let s := { s with p_ppid := update s.p_ppid q 1 }
    (s.parent q).map (s.leave q)

/-! ## Waiting -/

def isChild (s : ProcSys) (p c : Slot) : Bool := s.p_ppid c = s.p_pid p

/-- A call of `wait` is over. -/
def waitDone (s : ProcSys) (p : Slot) (r : WaitResult) : ProcSys :=
  { s with waits := s.waits ++ [(p, r)] }.goto p .user

/-- One turn of the loop of `wait`; `f` says whether an earlier turn has seen a child. -/
def waitScan (s : ProcSys) (p : Slot) (f : Bool) (w : ℤ) : ProcSys :=
  match (List.finRange NPROC).find? fun c => s.isChild p c && s.p_stat c = .szomb with
  | some c => s.goto p (.reaping c (s.p_pid c))
  | none =>
    if f || (List.finRange NPROC).any (s.isChild p) then
      if s.issig p then (s.waitDone p .eintr).psig p w
      else { s with p_stat := update s.p_stat p .swait }.goto p .waitSleep
    else s.waitDone p .echild

/-- After the sleep in `wait`. -/
def waitWoken (s : ProcSys) (p : Slot) (w : ℤ) : ProcSys :=
  if s.issig p then (s.waitDone p .eintr).psig p w else s.waitScan p true w

/-- Lay the child to rest and collect its status. -/
def reap (s : ProcSys) (p c : Slot) (pid : ℤ) : ProcSys :=
  { s with
    p_stat := update s.p_stat c .null
    p_pid := update s.p_pid c 0
    p_ppid := update s.p_ppid c 0
    p_sig := update s.p_sig c 0
    p_ttyp := update s.p_ttyp c 0
    killed := update s.killed c false }.waitDone p (.child pid (s.blk (s.p_addr c)))

end ProcSys

/-- What can happen. -/
inductive ProcAct
  /-- A process in another system call goes to sleep or is woken there. -/
  | stat (p : Slot) (st : PStat)
  /-- Another system call sets `u_arg[0]`. -/
  | args (p : Slot) (v : ℤ)
  /-- A word of the `u` area that is not in `u_signal`. -/
  | other (p : Slot) (n v : ℤ)
  /-- A swapped image is written over a block. -/
  | image (a : ℕ) (v : ℤ)
  | fork (p : Slot)
  | rexit (p : Slot) (w : ℤ)
  | wait (p : Slot) (w : ℤ)
  | kill (p : Slot) (a sig : ℤ)
  | ssig (p : Slot) (a v : ℤ)
  | exec (p : Slot)
  | setuid (p : Slot) (uid : ℤ)
  /-- A terminal is opened. -/
  | klopen (p : Slot) (tp : ℤ)
  /-- An interrupt or quit character is typed. -/
  | tty (tp : ℤ) (quit : Bool)
  /-- `writep` finds no reader. -/
  | epipe (p : Slot)
  /-- `issig` and `psig`, at the end of a trap, on a clock tick in user mode, or after a sleep of
  `exit` or of another system call that a signal has cut short. -/
  | psig (p : Slot) (w : ℤ)
  /-- `malloc(swapmap, 1)` in `exit`. -/
  | swapAlloc (p : Slot) (a : ℕ)
  /-- The process goes on from where it stands. -/
  | run (p : Slot) (w : ℤ)

namespace ProcSys

/-- The process can run; process 0 stays in `sched`. -/
def runnable (s : ProcSys) (p : Slot) : Bool := p ≠ 0 ∧ s.p_stat p = .srun

/-- The process can run, and has its proc entry. -/
def running (s : ProcSys) (p : Slot) : Bool := s.runnable p && s.u_procp p = some p

/-- `p_stat` of a process that is neither free nor a zombie. -/
def live (s : ProcSys) (p : Slot) : Bool :=
  match s.p_stat p with
  | .null | .szomb => false
  | _ => true

def step (s : ProcSys) : ProcAct → Option ProcSys
  | .stat p st =>
    -- `wakeup`, `setrun`, `swtch` and the like: any change between live states
    if s.live p && s.pc p ≠ .waitSleep && st ≠ .null && st ≠ .szomb && st ≠ .sstop &&
        s.u_procp p = some p then
      some { s with p_stat := update s.p_stat p st }
    else none
  | .args p v =>
    if s.running p && s.pc p = .user then some { s with u_arg0 := update s.u_arg0 p v } else none
  | .other p n v =>
    -- the other fields of the u area; `u_procp` and `u_arg0` are modelled
    if (n < 0 ∨ NSIG ≤ n) ∧ n ≠ U_PROCP ∧ n ≠ U_ARG then
      some { s with u_signal := update s.u_signal p (update (s.u_signal p) n v) }
    else none
  -- an image goes only to blocks that no zombie's word is in
  | .image a v => if s.freeBlk a then some { s with blk := update s.blk a v } else none
  | .fork p => if s.runnable p && s.pc p = .user then s.fork p else none
  | .rexit p w => if s.running p && s.pc p = .user then some (s.exit p w) else none
  | .wait p w => if s.running p && s.pc p = .user then some (s.waitScan p false w) else none
  | .kill p a sig => if s.runnable p && s.pc p = .user then some (s.kill p a sig).1 else none
  | .ssig p a v => if s.running p && s.pc p = .user then some (s.ssig p a v) else none
  | .exec p => if s.running p && s.pc p = .user then some (s.exec p) else none
  | .setuid p uid =>
    if s.running p && s.pc p = .user then
      some { s with
        u_uid := update s.u_uid p uid
        p_uid := update s.p_uid p uid }
    else none
  | .klopen p tp =>
    -- the first terminal that a process opens is its own
    if s.running p && s.pc p = .user && tp ≠ 0 then
      some { s with p_ttyp := if s.p_ttyp p = 0 then update s.p_ttyp p tp else s.p_ttyp }
    else none
  | .tty tp quit => if tp ≠ 0 then some (s.signal tp (if quit then SIGQIT else SIGINT)) else none
  | .epipe p => if s.running p && s.pc p = .user then some (s.psignal p SIGPIPE) else none
  | .psig p w =>
    -- on the way out of the kernel, or at a sleep while the files of an exit are closed
    if s.running p && (s.pc p = .user || s.pc p = .closing) && s.issig p then some (s.psig p w)
    else none
  | .swapAlloc p a =>
    if s.running p && s.pc p = .closing && decide (s.freeBlk a) then some (s.goto p (.writing a))
    else none
  | .run p w =>
    if s.running p then
      -- the process goes on from the sleep point it is at
      match s.pc p with
      | .dumping w => some (s.exit p w)
      | .writing a => s.exitDone p a
      | .waitSleep => some (s.waitWoken p w)
      | .reaping c pid => some (s.reap p c pid)
      | _ => none
    else none

/-- Process 0 in `sched` and process 1, which `main` has made; nothing sets the memory at the kernel
address 0. -/
def boot (nul : NullProc) : ProcSys where
  p_stat p := if p = 0 ∨ p = 1 then .srun else .null
  p_sig _ := 0
  p_uid _ := 0
  p_ttyp _ := 0
  p_pid p := if p = 1 then 1 else 0
  p_ppid _ := 0
  p_addr _ := 0
  mpid := 1
  nul := nul
  u_procp p := some p
  u_uid _ := 0
  u_signal _ _ := 0
  u_arg0 _ := 0
  blk _ := 0
  pc _ := .user
  sent _ := false
  killed _ := false
  exited _ := 0
  creator _ := 0
  orphan _ := false
  waits := []

/-! ## What the loops over `psignal` do -/

/-- `psignal` for all slots of a set at once. -/
def post (s : ProcSys) (sel : Slot → Bool) (sig : ℤ) : ProcSys :=
  { s with
    p_sig := fun p => if sel p ∧ s.p_sig p ≠ SIGKIL then toChar sig else s.p_sig p
    p_stat := fun p => if sel p ∧ s.p_stat p = .swait then .srun else s.p_stat p
    sent := fun p => s.sent p || sel p
    killed := fun p => s.killed p ||
      (sel p && (toChar sig = SIGKIL && s.p_stat p ≠ .null && !s.exiting p)) }

/-- A valid signal is posted to the one process. -/
theorem psignal_eq_post (s : ProcSys) (p : Slot) {sig : ℤ} (hsig : sig < NSIG) :
    s.psignal p sig = s.post (fun q => q = p) sig := by
  rw [psignal, if_neg (by omega), post]
  congr 1 <;> funext q <;> rcases eq_or_ne q p with rfl | hq <;> simp [*]

theorem post_none (s : ProcSys) (sig : ℤ) : s.post (fun _ => false) sig = s := by
  simp [post]

/-- Slots that have had their turn do not come up again. -/
theorem post_post (s : ProcSys) (sel sel' : Slot → Bool) (sig : ℤ)
    (hdisj : ∀ p, sel p = true → sel' p = false) :
    (s.post sel sig).post sel' sig = s.post (fun p => sel p || sel' p) sig := by
  unfold post
  congr 1 <;> funext p <;> have hp := hdisj p <;> cases hsel : sel p <;>
    simp_all [exiting]

/-- A test of the loops looks at fields that `psignal` leaves alone. -/
def Steady (sel : ProcSys → Slot → Bool) : Prop :=
  ∀ s sel' sig, sel (s.post sel' sig) = sel s

/-- The loop of `psignal` calls posts the signal to the selected processes. -/
theorem foldl_psignal {sel : ProcSys → Slot → Bool} (hsel : Steady sel) {sig : ℤ}
    (hsig : sig < NSIG) (l : List Slot) (hl : l.Nodup) (s : ProcSys) :
    l.foldl (fun s p => if sel s p then s.psignal p sig else s) s =
      s.post (fun p => p ∈ l && sel s p) sig := by
  induction l generalizing s with
  | nil => simp [post_none]
  | cons a l ih =>
    obtain ⟨ha, hl⟩ := List.nodup_cons.mp hl
    rw [List.foldl_cons]
    split
    · next hsela =>
      rw [ih hl, psignal_eq_post s a hsig, hsel, post_post]
      · congr 1
        funext p
        rcases eq_or_ne p a with rfl | hp <;> simp [*]
      · intro p hp
        simp_all
    · next hsela =>
      rw [ih hl]
      congr 1
      funext p
      rcases eq_or_ne p a with rfl | hp <;> simp [*]

/-- A number from `NSIG` on is posted to nobody. -/
theorem foldl_invalid {sel : ProcSys → Slot → Bool} {sig : ℤ} (hsig : NSIG ≤ sig) (l : List Slot)
    (s : ProcSys) : l.foldl (fun s p => if sel s p then s.psignal p sig else s) s = s := by
  induction l with
  | nil => rfl
  | cons a l ih => simp [psignal, hsig]

/-- The loops of `signal` and `kill` post to the selected processes, below `NSIG` only. -/
theorem psignals_eq {sel : ProcSys → Slot → Bool} (hsel : Steady sel) (s : ProcSys) (sig : ℤ) :
    s.psignals sel sig = if sig < NSIG then s.post (sel s) sig else s := by
  split
  · next hsig =>
    rw [psignals, foldl_psignal hsel hsig _ (List.nodup_finRange NPROC)]
    simp
  · next hsig => exact foldl_invalid (by omega) _ s

theorem steady_ttyp (tp : ℤ) : Steady fun s p => s.p_ttyp p = tp := fun _ _ _ => rfl

theorem steady_killTarget (q : Slot) (a : ℤ) : Steady (killTarget q a) := fun _ _ _ => rfl

end ProcSys

end UnixV6
