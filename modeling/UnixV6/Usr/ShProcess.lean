import UnixV6.H.Param
import UnixV6.Usr.ShWords

/-!
# The processes of the shell (`usr/sh.c`)

`runcmd` never returns. What a process has yet to do is a list of statements, and `runcmd` of a node
of the tree is replaced by the statements of its `case`. The processes run side by side, and each
takes one statement at a time. A system call that can fail may do so whenever it is made.

The kernel is here as the calls show it: `close` and `dup` change the descriptors, a new descriptor
is the lowest that is free, `fork` copies the descriptors, `wait` takes a child that has ended, and
the children of a process that ends belong to the first process. What a program does that `exec`
has loaded is not said, but that it ends. Left out are what the shell prints, the loop of `main`
that reads lines, and signals.
-/

namespace UnixV6.Sh

open Usr

/-! ## Descriptors -/

/-- What a descriptor is open on. -/
inductive Desc
  /-- What the shell had open, before it read the line. -/
  | inherited (fd : ℕ)
  | file (name : Word) (mode : Mode)
  | pipeRead (k : ℕ)
  | pipeWrite (k : ℕ)
  deriving DecidableEq, Repr

/-- The descriptors of a process. -/
abbrev Fds : Type := ℕ → Option Desc

/-- The lowest descriptor that is free. -/
def ufalloc (fds : Fds) : Option ℕ := (List.range NOFILE).find? fun i => (fds i).isNone

def close (fds : Fds) (fd : ℕ) : Fds := Function.update fds fd none

/-- `dup`; the shell does not look at what it returns. -/
def dup (fds : Fds) (fd : ℕ) : Fds :=
  match ufalloc fds with
  | some i => if (fds fd).isSome then Function.update fds i (fds fd) else fds
  | none => fds

/-! ## Statements -/

/-- An argument of `close` or `dup`: a number, or one of the two ends in `p`. -/
inductive Arg
  | const (fd : ℕ)
  | p0
  | p1
  deriving DecidableEq, Repr

def Arg.val (p : ℕ × ℕ) : Arg → ℕ
  | const fd => fd
  | p0 => p.1
  | p1 => p.2

/-- A statement of `runcmd`. -/
inductive Stmt
  | close (fd : Arg)
  | dup (fd : Arg)
  /-- `p[0] = open(file, ...)`, and the `exit` if that fails. For `O_APPEND` with the `seek`. -/
  | openFile (file : Word) (mode : Mode)
  /-- `if(pipe(p) < 0) panic("pipe")`. -/
  | pipe
  /-- `if(fork1() == 0) child`, where the child does not come back. -/
  | fork1 (child : List Stmt)
  | wait
  | runcmd (cmd : Cmd)
  /-- `exec`, and the message if it returns. -/
  | exec (path : List Chr) (argv : List Word)
  | exit

/-- The file that is executed for a name. The buffer `bincmd` has room for 19 characters. -/
def bincmd (w : Word) : List Chr :=
  if w.text.head? = some (ascii '/') then w.text
  else ['/', 'b', 'i', 'n', '/'].map ascii ++ w.text.take 19

/-- The `switch` of `runcmd`, and the `exit` behind it. -/
def switch : Cmd → List Stmt
  | .exec [] => [.exit]
  | .exec (w :: argv) => [.exec (bincmd w) (w :: argv), .exit]
  | .redir cmd file mode fd => [.close (.const fd), .openFile file mode, .runcmd cmd, .exit]
  | .list left right => [.fork1 [.runcmd left], .wait, .runcmd right, .exit]
  | .pipe left right =>
    [.pipe,
      .fork1 [.close (.const 1), .dup .p1, .close .p0, .close .p1, .runcmd left],
      .fork1 [.close (.const 0), .dup .p0, .close .p0, .close .p1, .runcmd right],
      .close .p0, .close .p1, .wait, .wait, .exit]
  | .back cmd => [.fork1 [.runcmd cmd], .exit]

/-- The statements, with the call of `runcmd` replaced if it is next. -/
def next : List Stmt → List Stmt
  | .runcmd cmd :: _ => switch cmd
  | code => code

/-! ## Processes -/

/-- What a process executes. -/
inductive Code
  | shell (code : List Stmt)
  | program (path : List Chr) (argv : List Word)
  | zombie

/-- A process, with the variable `p` of its `runcmd`. -/
structure Proc where
  code : Code
  fds : Fds
  p : ℕ × ℕ

namespace Proc

/-- A statement that changes only the process. `n` counts the pipes. -/
def own (n : ℕ) (pr : Proc) : Option (ℕ × Proc) :=
  match pr.code with
  | .shell code =>
    match next code with
    | .close fd :: rest => some (n, ⟨.shell rest, Sh.close pr.fds (fd.val pr.p), pr.p⟩)
    | .dup fd :: rest => some (n, ⟨.shell rest, Sh.dup pr.fds (fd.val pr.p), pr.p⟩)
    | .openFile file mode :: rest =>
      (ufalloc pr.fds).map fun i =>
        (n, ⟨.shell rest, Function.update pr.fds i (some (.file file mode)), (i, pr.p.2)⟩)
    | .pipe :: rest => do
      let r ← ufalloc pr.fds
      let fds := Function.update pr.fds r (some (.pipeRead n))
      let w ← ufalloc fds
      return (n + 1, ⟨.shell rest, Function.update fds w (some (.pipeWrite n)), (r, w)⟩)
    | .exec path argv :: _ => some (n, ⟨.program path argv, pr.fds, pr.p⟩)
    | _ => none
  | _ => none

/-- A call that fails: the process says so and ends. A failing `fork` goes unnoticed, as it returns
`-EAGAIN` and `fork1` tests for -1: the process goes on as the parent. -/
def fail (pr : Proc) : Option Proc :=
  match pr.code with
  | .shell code =>
    match next code with
    | .openFile _ _ :: _ => some { pr with code := .shell [.exit] }
    | .pipe :: _ => some { pr with code := .shell [.exit] }
    | .fork1 _ :: rest => some { pr with code := .shell rest }
    | .exec _ _ :: rest => some { pr with code := .shell rest }
    | _ => none
  | _ => none

/-- What the child of a `fork1` does, and what the process does then. -/
def forks (pr : Proc) : Option (List Stmt × List Stmt) :=
  match pr.code with
  | .shell code =>
    match next code with
    | .fork1 child :: rest => some (child, rest)
    | _ => none
  | _ => none

/-- What the process does after a `wait`. -/
def waits (pr : Proc) : Option (List Stmt) :=
  match pr.code with
  | .shell code =>
    match next code with
    | .wait :: rest => some rest
    | _ => none
  | _ => none

/-- The process may end: it calls `exit`, or it is a program. -/
def ends (pr : Proc) : Bool :=
  match pr.code with
  | .shell code =>
    match next code with
    | .exit :: _ => true
    | _ => false
  | .program _ _ => true
  | .zombie => false

end Proc

/-! ## Steps -/

/-- A slot of the process table. -/
abbrev Pid : Type := Fin NPROC

/-- The processes of a line. The parent of a process is `none` if it is none of them: it is the shell
that has read the line, or the first process. -/
structure Sys where
  proc : Pid → Option Proc
  ppid : Pid → Option Pid
  pipes : ℕ

/-- What can happen next. -/
inductive Act
  | own (x : Pid)
  | fail (x : Pid)
  | fork (x q : Pid)
  | wait (x q : Pid)
  /-- `wait` returns at once if there is no child. -/
  | noChild (x : Pid)
  | exit (x : Pid)
  /-- A process that has ended is taken by a parent that is not among the processes. -/
  | reap (q : Pid)
  deriving DecidableEq

namespace Sys

def IsChild (s : Sys) (q x : Pid) : Prop := (s.proc q).isSome ∧ s.ppid q = some x

instance (s : Sys) (q x : Pid) : Decidable (s.IsChild q x) := inferInstanceAs (Decidable (_ ∧ _))

/-- The process in a slot. -/
def set (s : Sys) (x : Pid) (pr : Option Proc) : Sys :=
  { s with proc := Function.update s.proc x pr }

/-- The process `x` is a zombie: its descriptors are closed, and its children have another
parent. -/
def zombify (s : Sys) (x : Pid) (p : ℕ × ℕ) : Sys :=
  { s.set x (some ⟨.zombie, fun _ => none, p⟩) with
    ppid := fun q => if s.ppid q = some x then none else s.ppid q }

def step (s : Sys) : Act → Option Sys
  -- a step on its own: no other process takes part
  | .own x => do
    let pr ← s.proc x
    let (n, pr) ← pr.own s.pipes
    return { s.set x (some pr) with pipes := n }
  | .fail x => do
    let pr ← s.proc x
    let pr ← pr.fail
    return s.set x (some pr)
  -- `fork` needs a free slot, and the child goes on with its own part
  | .fork x q => do
    let pr ← s.proc x
    let (child, rest) ← pr.forks
    if (s.proc q).isNone then
      let s := s.set x (some { pr with code := .shell rest })
      let s := s.set q (some { pr with code := .shell child })
      return { s with ppid := Function.update s.ppid q (some x) }
    else none
  -- `wait` reaps a child that is a zombie
  | .wait x q => do
    let pr ← s.proc x
    let rest ← pr.waits
    let z ← s.proc q
    match z.code with
    | .zombie =>
      if s.ppid q = some x then
        return (s.set q none).set x (some { pr with code := .shell rest })
      else none
    | _ => none
  -- without children `wait` returns at once
  | .noChild x => do
    let pr ← s.proc x
    let rest ← pr.waits
    if ∀ q, ¬s.IsChild q x then return s.set x (some { pr with code := .shell rest }) else none
  | .exit x => do
    let pr ← s.proc x
    if pr.ends then return s.zombify x pr.p else none
  -- a zombie whose parent is not one of the processes
  | .reap q => do
    let z ← s.proc q
    match z.code with
    | .zombie => if s.ppid q = none then return s.set q none else none
    | _ => none

/-- The child of the shell that calls `runcmd` for a tree. -/
def init (x : Pid) (cmd : Cmd) (fds : Fds) : Sys where
  proc := Function.update (fun _ => none) x (some ⟨.shell [.runcmd cmd], fds, (0, 0)⟩)
  ppid _ := none
  pipes := 0

end Sys

end UnixV6.Sh
