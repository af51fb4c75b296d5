import UnixV6.Usr.ShMeaning
import UnixV6.Usr.ShSteps

/-!
# Trees of processes (`usr/sh.c`)

A command that is under way is carried out by a process and those below it. A step of one of them is
a step of the command, or one that the command does not show: a descriptor is closed on the way, or a
process is there that the command has already.
-/

namespace UnixV6.Sh

open Usr

/-! ## Trees of processes -/

/-- What is left to do after the `close` and `dup` that are next, with the descriptors then. -/
def settle : List Stmt → Fds → ℕ × ℕ → List Stmt × Fds
  | .close fd :: rest, fds, p => settle rest (close fds (fd.val p)) p
  | .dup fd :: rest, fds, p => settle rest (dup fds (fd.val p)) p
  | .runcmd (.redir cmd file mode fd) :: _, fds, _ =>
    ([.openFile file mode, .runcmd cmd, .exit], close fds fd)
  | .runcmd cmd :: _, fds, _ => (switch cmd, fds)
  | code, fds, _ => (code, fds)

/-- The process is at the beginning of a command. -/
structure Ready (code : List Stmt) (fds : Fds) (p : ℕ × ℕ) (t : Cmd) (env : Env) : Prop where
  settled : settle code fds p = settle [.runcmd t] env.fds (0, 0)
  wellFormed : t.WellFormed

/-- The end of a pipeline: some ends of the pipe are to be closed yet, and there are `k` calls of
`wait`. -/
def closing (ends : List Arg) (k : ℕ) : List Stmt :=
  ends.map .close ++ (List.replicate k .wait ++ [.exit])

/-- The statements of a pipeline from the second `fork1` on. -/
def pipelineRight (right : Cmd) : List Stmt :=
  .fork1 [.close (.const 0), .dup .p0, .close .p0, .close .p1, .runcmd right] ::
    closing [.p0, .p1] 2

/-- The statements of a pipeline behind the `pipe`. -/
def pipeline (left right : Cmd) : List Stmt :=
  .fork1 [.close (.const 1), .dup .p1, .close .p0, .close .p1, .runcmd left] :: pipelineRight right

/-- The descriptors of the process that has made a pipe. -/
def pipeFds (env : Env) (n : ℕ) : Fds :=
  Function.update (Function.update env.fds 3 (some (.pipeRead n))) 4 (some (.pipeWrite n))

/-- The process `pid` and the processes below it, which are in `D`, carry out a task. -/
inductive Holds (s : Sys) : Pid → Task → Set Pid → Prop
  | cmd {pid code fds p t env} (hproc : s.proc pid = some ⟨.shell code, fds, p⟩)
      (hready : Ready code fds p t env) (hchild : ∀ x, ¬s.IsChild x pid) :
      Holds s pid (.cmd t env) {pid}
  | program {pid path argv env p} (hproc : s.proc pid = some ⟨.program path argv, env.fds, p⟩)
      (hchild : ∀ x, ¬s.IsChild x pid) : Holds s pid (.program path argv env) {pid}
  | zombie {pid fds p} (hproc : s.proc pid = some ⟨.zombie, fds, p⟩)
      (hchild : ∀ x, ¬s.IsChild x pid) : Holds s pid .done {pid}
  | exit {pid rest fds p} (hproc : s.proc pid = some ⟨.shell (.exit :: rest), fds, p⟩) :
      Holds s pid .done {pid}
  | seq {pid q a D t env p}
      (hproc : s.proc pid = some ⟨.shell [.wait, .runcmd t, .exit], env.fds, p⟩)
      (hwf : t.WellFormed) (hq : Holds s q a D) (hchild : ∀ x, s.IsChild x pid ↔ x = q)
      (hD : pid ∉ D) : Holds s pid (.seq a t env) (insert pid D)
  /-- The left side has not been started. -/
  | seqNone {pid t env p}
      (hproc : s.proc pid = some ⟨.shell [.wait, .runcmd t, .exit], env.fds, p⟩)
      (hwf : t.WellFormed) (hchild : ∀ x, ¬s.IsChild x pid) : Holds s pid (.seq .done t env) {pid}
  | pipe {pid left right env n}
      (hproc : s.proc pid = some ⟨.shell (pipeline left right), pipeFds env n, (3, 4)⟩)
      (hwf : left.WellFormed ∧ right.WellFormed) (hchild : ∀ x, ¬s.IsChild x pid) :
      Holds s pid (.par (.cmd left { env with stdout := .pipeWrite n })
        (.cmd right { env with stdin := .pipeRead n })) {pid}
  | half {pid q a D right env n}
      (hproc : s.proc pid = some ⟨.shell (pipelineRight right), pipeFds env n, (3, 4)⟩)
      (hwf : right.WellFormed) (hq : Holds s q a D) (hchild : ∀ x, s.IsChild x pid ↔ x = q)
      (hD : pid ∉ D) :
      Holds s pid (.par a (.cmd right { env with stdin := .pipeRead n })) (insert pid D)
  /-- The left side has not been started. -/
  | halfNone {pid right env n}
      (hproc : s.proc pid = some ⟨.shell (pipelineRight right), pipeFds env n, (3, 4)⟩)
      (hwf : right.WellFormed) (hchild : ∀ x, ¬s.IsChild x pid) :
      Holds s pid (.par .done (.cmd right { env with stdin := .pipeRead n })) {pid}
  | both {pid q r a b D E fds p e} (hproc : s.proc pid = some ⟨.shell (closing e 2), fds, p⟩)
      (hq : Holds s q a D)
      (hr : Holds s r b E) (hchild : ∀ x, s.IsChild x pid ↔ x = q ∨ x = r) (hD : pid ∉ D)
      (hE : pid ∉ E) (hDE : Disjoint D E) : Holds s pid (.par a b) (insert pid (D ∪ E))
  | leftDone {pid r b E fds p e k}
      (hproc : s.proc pid = some ⟨.shell (closing e (k + 1)), fds, p⟩)
      (hr : Holds s r b E) (hchild : ∀ x, s.IsChild x pid ↔ x = r) (hE : pid ∉ E) :
      Holds s pid (.par .done b) (insert pid E)
  | rightDone {pid q a D fds p e k}
      (hproc : s.proc pid = some ⟨.shell (closing e (k + 1)), fds, p⟩)
      (hq : Holds s q a D) (hchild : ∀ x, s.IsChild x pid ↔ x = q) (hD : pid ∉ D) :
      Holds s pid (.par a .done) (insert pid D)
  | neither {pid fds p e k} (hproc : s.proc pid = some ⟨.shell (closing e k), fds, p⟩)
      (hchild : ∀ x, ¬s.IsChild x pid) : Holds s pid (.par .done .done) {pid}

variable {s s' : Sys} {pid x q : Pid} {a b : Task} {D E : Set Pid} {act : Act}

/-! ## The next statement -/

/-- The next statement is a `close` or a `dup`, or the process has settled. -/
theorem settle_cases (code : List Stmt) (fds : Fds) (p : ℕ × ℕ) :
    (∃ fd rest, next code = .close fd :: rest ∧
      settle code fds p = settle rest (close fds (fd.val p)) p) ∨
    (∃ fd rest, next code = .dup fd :: rest ∧
      settle code fds p = settle rest (dup fds (fd.val p)) p) ∨
    (settle code fds p = (next code, fds) ∧
      ∀ fd rest, next code ≠ .close fd :: rest ∧ next code ≠ .dup fd :: rest) := by
  match code with
  | [] => exact .inr (.inr ⟨rfl, by simp [next]⟩)
  | .close fd :: rest => exact .inl ⟨fd, rest, rfl, rfl⟩
  | .dup fd :: rest => exact .inr (.inl ⟨fd, rest, rfl, rfl⟩)
  | .runcmd (.redir cmd file mode fd) :: _ => exact .inl ⟨_, _, rfl, rfl⟩
  | .runcmd (.exec []) :: _ => exact .inr (.inr ⟨rfl, by simp [next, switch]⟩)
  | .runcmd (.exec (_ :: _)) :: _ => exact .inr (.inr ⟨rfl, by simp [next, switch]⟩)
  | .runcmd (.list _ _) :: _ => exact .inr (.inr ⟨rfl, by simp [next, switch]⟩)
  | .runcmd (.pipe _ _) :: _ => exact .inr (.inr ⟨rfl, by simp [next, switch]⟩)
  | .runcmd (.back _) :: _ => exact .inr (.inr ⟨rfl, by simp [next, switch]⟩)
  | .openFile _ _ :: _ => exact .inr (.inr ⟨rfl, by simp [next]⟩)
  | .pipe :: _ => exact .inr (.inr ⟨rfl, by simp [next]⟩)
  | .fork1 _ :: _ => exact .inr (.inr ⟨rfl, by simp [next]⟩)
  | .wait :: _ => exact .inr (.inr ⟨rfl, by simp [next]⟩)
  | .exec _ _ :: _ => exact .inr (.inr ⟨rfl, by simp [next]⟩)
  | .exit :: _ => exact .inr (.inr ⟨rfl, by simp [next]⟩)

/-- Nothing behind a `runcmd` is executed. -/
theorem settle_runcmd (t : Cmd) (rest : List Stmt) (fds : Fds) (p : ℕ × ℕ) :
    settle (.runcmd t :: rest) fds p = settle [.runcmd t] fds (0, 0) := by
  cases t <;> rfl

/-! ## Descriptors of an environment -/

theorem ufalloc_env (env : Env) : ufalloc env.fds = some 3 := rfl

/-- A file that is opened behind the `close` of a redirection gets its descriptor. -/
theorem openFile_fds (env : Env) (file : Word) (mode : Mode) :
    ufalloc (close env.fds mode.fd) = some mode.fd ∧
      Function.update (close env.fds mode.fd) mode.fd (some (.file file mode)) =
        (env.redirect file mode).fds := by
  refine ⟨by cases mode <;> rfl, ?_⟩
  rw [close, Function.update_idem]
  funext i
  cases mode <;> match i with
    | 0 => rfl
    | 1 => rfl
    | 2 => rfl
    | _ + 3 => rfl

/-- A pipe gets the two lowest descriptors behind the standard ones. -/
theorem pipe_fds (env : Env) (n : ℕ) :
    ufalloc (Function.update env.fds 3 (some (.pipeRead n))) = some 4 := rfl

/-- The left side of a pipeline comes to its command with the pipe for its output. -/
theorem settle_left (left : Cmd) (env : Env) (n : ℕ) :
    settle [.close (.const 1), .dup .p1, .close .p0, .close .p1, .runcmd left] (pipeFds env n)
      (3, 4) = settle [.runcmd left] { env with stdout := .pipeWrite n }.fds (0, 0) := by
  have hfds : close (close (dup (close (pipeFds env n) 1) 4) 3) 4 =
      { env with stdout := .pipeWrite n }.fds := by
    have hfree : ufalloc (close (pipeFds env n) 1) = some 1 := rfl
    rw [dup, hfree]
    funext i
    match i with
    | 0 => rfl
    | 1 => rfl
    | 2 => rfl
    | 3 => rfl
    | 4 => rfl
    | _ + 5 => rfl
  rw [← hfds, ← settle_runcmd left [] _ (3, 4)]
  rfl

/-- The right side has it for its input. -/
theorem settle_right (right : Cmd) (env : Env) (n : ℕ) :
    settle [.close (.const 0), .dup .p0, .close .p0, .close .p1, .runcmd right] (pipeFds env n)
      (3, 4) = settle [.runcmd right] { env with stdin := .pipeRead n }.fds (0, 0) := by
  have hfds : close (close (dup (close (pipeFds env n) 0) 3) 3) 4 =
      { env with stdin := .pipeRead n }.fds := by
    have hfree : ufalloc (close (pipeFds env n) 0) = some 0 := rfl
    rw [dup, hfree]
    funext i
    match i with
    | 0 => rfl
    | 1 => rfl
    | 2 => rfl
    | 3 => rfl
    | 4 => rfl
    | _ + 5 => rfl
  rw [← hfds, ← settle_runcmd right [] _ (3, 4)]
  rfl

/-! ## Other processes -/

theorem Holds.mem (h : Holds s pid a D) : pid ∈ D := by
  cases h <;> simp

/-- The processes of a tree are there. -/
theorem Holds.alive (h : Holds s pid a D) : ∀ y ∈ D, (s.proc y).isSome := by
  induction h with
  | cmd hproc | program hproc | zombie hproc | exit hproc | seqNone hproc | pipe hproc
  | halfNone hproc | neither hproc =>
    rintro y rfl
    simp [hproc]
  | seq hproc hwf hq hchild hD ih | half hproc hwf hq hchild hD ih =>
    rintro y (rfl | hy)
    · simp [hproc]
    · exact ih y hy
  | both hproc hq hr hchild hD hE hDE ihq ihr =>
    rintro y (rfl | hy | hy)
    · simp [hproc]
    · exact ihq y hy
    · exact ihr y hy
  | leftDone hproc hq hchild hD ih | rightDone hproc hq hchild hD ih =>
    rintro y (rfl | hy)
    · simp [hproc]
    · exact ih y hy

/-- A tree is what its processes and their children are. -/
theorem Holds.frame (h : Holds s pid a D) (hf : Frame s s' D) : Holds s' pid a D := by
  -- the process at the root is one of those that stay
  have hmem := h.mem
  -- by the tree; a subtree stays since its processes are among them
  induction h with
  | cmd hproc hready hchild =>
    exact .cmd ((hf.proc _ hmem).trans hproc) hready fun x => (hf.isChild x _ hmem).not.mpr (hchild x)
  | program hproc hchild =>
    exact .program ((hf.proc _ hmem).trans hproc) fun x => (hf.isChild x _ hmem).not.mpr (hchild x)
  | zombie hproc hchild =>
    exact .zombie ((hf.proc _ hmem).trans hproc) fun x => (hf.isChild x _ hmem).not.mpr (hchild x)
  | exit hproc => exact .exit ((hf.proc _ hmem).trans hproc)
  | seq hproc hwf hq hchild hD ih =>
    exact .seq ((hf.proc _ hmem).trans hproc) hwf (ih (hf.mono (Set.subset_insert _ _)) hq.mem)
      (fun x => (hf.isChild x _ hmem).trans (hchild x)) hD
  | seqNone hproc hwf hchild =>
    exact .seqNone ((hf.proc _ hmem).trans hproc) hwf
      fun x => (hf.isChild x _ hmem).not.mpr (hchild x)
  | pipe hproc hwf hchild =>
    exact .pipe ((hf.proc _ hmem).trans hproc) hwf fun x => (hf.isChild x _ hmem).not.mpr (hchild x)
  | halfNone hproc hwf hchild =>
    exact .halfNone ((hf.proc _ hmem).trans hproc) hwf
      fun x => (hf.isChild x _ hmem).not.mpr (hchild x)
  | neither hproc hchild =>
    exact .neither ((hf.proc _ hmem).trans hproc)
      fun x => (hf.isChild x _ hmem).not.mpr (hchild x)
  | half hproc hwf hq hchild hD ih =>
    exact .half ((hf.proc _ hmem).trans hproc) hwf (ih (hf.mono (Set.subset_insert _ _)) hq.mem)
      (fun x => (hf.isChild x _ hmem).trans (hchild x)) hD
  | both hproc hq hr hchild hD hE hDE ihq ihr =>
    -- both subtrees stay
    have hsub := hf.mono (Set.subset_insert _ _)
    exact .both ((hf.proc _ hmem).trans hproc) (ihq (hsub.mono Set.subset_union_left) hq.mem)
      (ihr (hsub.mono Set.subset_union_right) hr.mem)
      (fun x => (hf.isChild x _ hmem).trans (hchild x)) hD hE hDE
  | leftDone hproc hr hchild hE ih =>
    exact .leftDone ((hf.proc _ hmem).trans hproc) (ih (hf.mono (Set.subset_insert _ _)) hr.mem)
      (fun x => (hf.isChild x _ hmem).trans (hchild x)) hE
  | rightDone hproc hq hchild hD ih =>
    exact .rightDone ((hf.proc _ hmem).trans hproc) (ih (hf.mono (Set.subset_insert _ _)) hq.mem)
      (fun x => (hf.isChild x _ hmem).trans (hchild x)) hD

/-- A tree below which a process has ended is that process. -/
theorem Holds.of_zombie {fds : Fds} {p : ℕ × ℕ} (h : Holds s pid a D)
    (hproc : s.proc pid = some ⟨.zombie, fds, p⟩) : a = .done ∧ D = {pid} := by
  cases h <;> simp_all

/-- A process in a tree is its root or a child in it. -/
theorem Holds.isChild_of_mem (h : Holds s pid a D) {y : Pid} (hy : y ∈ D) :
    y = pid ∨ ∃ z ∈ D, s.IsChild y z := by
  -- The root of a tree below the process is one of its children.
  have below : ∀ {pid q y : Pid} {E D : Set Pid}, y = q ∨ (∃ z ∈ E, s.IsChild y z) →
      s.IsChild q pid → pid ∈ D → E ⊆ D → y = pid ∨ ∃ z ∈ D, s.IsChild y z := by
    rintro pid q y E D (rfl | ⟨z, hz, hchild⟩) hq hpid hsub
    · exact .inr ⟨pid, hpid, hq⟩
    · exact .inr ⟨z, hsub hz, hchild⟩
  induction h with
  | cmd | program | zombie | exit | seqNone | pipe | halfNone | neither => exact .inl hy
  | seq hproc hwf hq hchild hD ih | half hproc hwf hq hchild hD ih =>
    obtain rfl | hy := hy
    · exact .inl rfl
    · exact below (ih hy) ((hchild _).mpr rfl) (Set.mem_insert _ _) (Set.subset_insert _ _)
  | both hproc hq hr hchild hD hE hDE ihq ihr =>
    obtain rfl | hy | hy := hy
    · exact .inl rfl
    · exact below (ihq hy) ((hchild _).mpr (.inl rfl)) (Set.mem_insert _ _)
        (Set.subset_union_left.trans (Set.subset_insert _ _))
    · exact below (ihr hy) ((hchild _).mpr (.inr rfl)) (Set.mem_insert _ _)
        (Set.subset_union_right.trans (Set.subset_insert _ _))
  | leftDone hproc hq hchild hD ih | rightDone hproc hq hchild hD ih =>
    obtain rfl | hy := hy
    · exact .inl rfl
    · exact below (ih hy) ((hchild _).mpr rfl) (Set.mem_insert _ _) (Set.subset_insert _ _)

/-! ## Steps of a tree -/

/-- What goes on without the tree: its parent `x` is about to end. -/
inductive Apart (s : Sys) (x : Pid) : List Task → Set Pid → Prop
  | none : Apart s x [] ∅
  | one {q b E rest fds p} (h : Holds s q b E) (hq : s.IsChild q x)
      (hx : s.proc x = some ⟨.shell (.exit :: rest), fds, p⟩) : Apart s x [b] E

/-- A step of the process `x` in a tree is a step of its task, or leaves the task as it is. The
processes of the tree, and that which is new, are still in a tree if they are there. -/
def Moves (s s' : Sys) (x pid : Pid) (a : Task) (D : Set Pid) : Prop :=
  ∃ a' bg D' E, ((a' = a ∧ bg = [] ∧ s'.pipes = s.pipes) ∨ Task.Step s.pipes a s'.pipes a' bg) ∧
    Holds s' pid a' D' ∧ Apart s' x bg E ∧ Disjoint D' E ∧
    ∀ y, y ∈ D' ∨ y ∈ E ↔ (y ∈ D ∨ s.proc y = none) ∧ s'.proc y ≠ none

/-- The same processes are there. -/
theorem covers_same (hD : ∀ y ∈ D, (s.proc y).isSome)
    (hsame : ∀ y, s'.proc y = none ↔ s.proc y = none) (y : Pid) :
    y ∈ D ∨ y ∈ (∅ : Set Pid) ↔ (y ∈ D ∨ s.proc y = none) ∧ s'.proc y ≠ none := by
  rw [Ne, hsame]
  have := hD y
  simp only [Set.mem_empty_iff_false, or_false]
  constructor
  · intro hy
    exact ⟨.inl hy, Option.isSome_iff_ne_none.mp (this hy)⟩
  · rintro ⟨hy | hy, hne⟩
    · exact hy
    · exact absurd hy hne

/-- A process that only goes on, at the root of a tree. -/
theorem Moves.root {pr pr' : Proc} {n : ℕ} {a' : Task} (hD : ∀ y ∈ D, (s.proc y).isSome)
    (hpr : s.proc pid = some pr) (hs' : s' = { s.set pid (some pr') with pipes := n })
    (hstep : (a' = a ∧ n = s.pipes) ∨ Task.Step s.pipes a n a' []) (h' : Holds s' pid a' D) :
    Moves s s' pid pid a D := by
  subst hs'
  refine ⟨a', [], D, ∅, ?_, h', .none, Set.disjoint_empty D, covers_same hD fun y => ?_⟩
  · exact hstep.imp_left fun ⟨ha, hn⟩ => ⟨ha, rfl, hn⟩
  · by_cases hy : y = pid <;> simp [hy, hpr]

/-- A process that ends, at the root of a tree. -/
theorem Moves.exit {pr : Proc} (hpr : s.proc pid = some pr) (ha : a = .done ∨
    Task.Step s.pipes a s.pipes .done []) : Moves s (s.zombify pid pr.p) pid pid a {pid} := by
  have hchild : ∀ y, ¬(s.zombify pid pr.p).IsChild y pid := by
    intro y
    by_cases hy : s.ppid y = some pid <;> simp [Sys.IsChild, Sys.zombify, hy]
  refine ⟨.done, [], {pid}, ∅, ?_, .zombie (s.set_self pid _) hchild, .none, Set.disjoint_empty _,
    covers_same (by simp [hpr]) fun y => ?_⟩
  · exact ha.imp_left fun h => ⟨h.symm, rfl, rfl⟩
  · by_cases hy : y = pid <;> simp [Sys.zombify, hy, hpr]

/-- The descriptors that a process at the beginning of a command has, if it has settled. -/
theorem ready_settled {code : List Stmt} {fds : Fds} {p : ℕ × ℕ} {t : Cmd} {env : Env}
    (hready : Ready code fds p t env) (hsettled : settle code fds p = (next code, fds)) :
    (next code, fds) = settle [.runcmd t] env.fds (0, 0) := hsettled ▸ hready.settled

section Command

variable {code : List Stmt} {fds : Fds} {p : ℕ × ℕ} {t : Cmd} {env : Env}

/-- A process at the beginning of a command closes a descriptor on its way, or begins. -/
theorem moves_cmd_own {n : ℕ} {pr' : Proc} (hproc : s.proc pid = some ⟨.shell code, fds, p⟩)
    (hready : Ready code fds p t env) (hchild : ∀ x, ¬s.IsChild x pid)
    (hown : Proc.own s.pipes ⟨.shell code, fds, p⟩ = some (n, pr')) :
    Moves s { s.set pid (some pr') with pipes := n } pid pid (.cmd t env) {pid} := by
  -- the tree is the one process, with no child
  have hD : ∀ y ∈ ({pid} : Set Pid), (s.proc y).isSome := by
    rintro y rfl
    simp [hproc]
  have hchild' : ∀ x, ¬({ s.set pid (some pr') with pipes := n } : Sys).IsChild x pid :=
    fun x => (isChild_set hproc pr' n x pid).not.mpr (hchild x)
  -- a descriptor still to be closed or copied, or the command itself
  obtain ⟨fd, rest, hnext, hset⟩ | ⟨fd, rest, hnext, hset⟩ | ⟨hset, hno⟩ := settle_cases code fds p
  · simp only [Proc.own, hnext, Option.some.injEq, Prod.mk.injEq] at hown
    obtain ⟨rfl, rfl⟩ := hown
    refine .root hD hproc rfl (.inl ⟨rfl, rfl⟩) ?_
    exact .cmd (s.set_self pid _) ⟨hset ▸ hready.settled, hready.wellFormed⟩ hchild'
  · simp only [Proc.own, hnext, Option.some.injEq, Prod.mk.injEq] at hown
    obtain ⟨rfl, rfl⟩ := hown
    refine .root hD hproc rfl (.inl ⟨rfl, rfl⟩) ?_
    exact .cmd (s.set_self pid _) ⟨hset ▸ hready.settled, hready.wellFormed⟩ hchild'
  · obtain ⟨hnext, rfl⟩ := Prod.mk.inj (ready_settled hready hset)
    -- by the command; `list` and `back` only fork
    cases t with
    | exec argv =>
      cases argv with
      | nil =>
        simp [Proc.own, hnext, settle, switch] at hown
      | cons w argv =>
        simp only [Proc.own, hnext, settle, switch, Option.some.injEq, Prod.mk.injEq] at hown
        obtain ⟨rfl, rfl⟩ := hown
        refine .root hD hproc rfl (.inr .exec) ?_
        exact .program (s.set_self pid _) hchild'
    | redir cmd file mode fd =>
      obtain ⟨rfl, hwf⟩ := hready.wellFormed
      obtain ⟨hfree, hfds⟩ := openFile_fds env file mode
      -- the file is opened at the descriptor just closed
      simp only [Proc.own, hnext, settle, hfree, hfds, Option.map_some, Option.some.injEq,
        Prod.mk.injEq] at hown
      obtain ⟨rfl, rfl⟩ := hown
      refine .root hD hproc rfl (.inr .redir) ?_
      exact .cmd (s.set_self pid _) ⟨settle_runcmd _ _ _ _, hwf⟩ hchild'
    | list left right =>
      simp [Proc.own, hnext, settle, switch] at hown
    | pipe left right =>
      -- the pipe gets the two free descriptors
      simp only [Proc.own, hnext, settle, switch, ufalloc_env, pipe_fds, Option.bind_eq_bind,
        Option.bind_some, Option.pure_def, Option.some.injEq, Prod.mk.injEq] at hown
      obtain ⟨rfl, rfl⟩ := hown
      refine .root hD hproc rfl (.inr .pipe) ?_
      exact .pipe (s.set_self pid _) hready.wellFormed hchild'
    | back cmd =>
      simp [Proc.own, hnext, settle, switch] at hown

/-- Its first call fails. Only the `fork1` of `;` has statements behind it that matter. -/
theorem moves_cmd_fail {pr' : Proc} (hproc : s.proc pid = some ⟨.shell code, fds, p⟩)
    (hready : Ready code fds p t env) (hchild : ∀ x, ¬s.IsChild x pid)
    (hfail : Proc.fail ⟨.shell code, fds, p⟩ = some pr') :
    Moves s (s.set pid (some pr')) pid pid (.cmd t env) {pid} := by
  have hD : ∀ y ∈ ({pid} : Set Pid), (s.proc y).isSome := by
    rintro y rfl
    simp [hproc]
  have hend : pr' = ⟨.shell [.exit], fds, p⟩ →
      Moves s (s.set pid (some pr')) pid pid (.cmd t env) {pid} := by
    rintro rfl
    exact .root (n := s.pipes) hD hproc rfl (.inr .fail) (.exit (s.set_self pid _))
  obtain ⟨fd, rest, hnext, -⟩ | ⟨fd, rest, hnext, -⟩ | ⟨hset, hno⟩ := settle_cases code fds p
  · simp [Proc.fail, hnext] at hfail
  · simp [Proc.fail, hnext] at hfail
  · obtain ⟨hnext, hfds⟩ := Prod.mk.inj (ready_settled hready hset)
    cases t with
    | exec argv =>
      cases argv with
      | nil => simp [Proc.fail, hnext, settle, switch] at hfail
      | cons w argv => exact hend (by simpa [Proc.fail, hnext, settle, switch] using hfail.symm)
    | redir cmd file mode fd => exact hend (by simpa [Proc.fail, hnext, settle] using hfail.symm)
    | list left right =>
      simp only [Proc.fail, hnext, settle, switch, Option.some.injEq] at hfail hfds
      subst hfail hfds
      refine .root (n := s.pipes) hD hproc rfl (.inr .listFail) ?_
      exact .seqNone (s.set_self pid _) hready.wellFormed.2
        fun x => (isChild_set hproc _ s.pipes x pid).not.mpr (hchild x)
    | pipe left right => exact hend (by simpa [Proc.fail, hnext, settle, switch] using hfail.symm)
    | back cmd => exact hend (by simpa [Proc.fail, hnext, settle, switch] using hfail.symm)

/-- It makes a new process, which it waits for in a list, and leaves alone behind `&`. -/
theorem moves_cmd_fork {child rest : List Stmt} (hproc : s.proc pid = some ⟨.shell code, fds, p⟩)
    (hready : Ready code fds p t env) (hchild : ∀ x, ¬s.IsChild x pid)
    (hforks : Proc.forks ⟨.shell code, fds, p⟩ = some (child, rest))
    (hf : Forked s s' pid q ⟨.shell rest, fds, p⟩ ⟨.shell child, fds, p⟩) :
    Moves s s' pid pid (.cmd t env) {pid} := by
  -- the whole tree is the one process
  have hD : ∀ y ∈ ({pid} : Set Pid), (s.proc y).isSome := by
    rintro y rfl
    simp [hproc]
  -- it is settling, or at its command
  obtain ⟨fd, rest, hnext, -⟩ | ⟨fd, rest, hnext, -⟩ | ⟨hset, hno⟩ := settle_cases code fds p
  · simp [Proc.forks, hnext] at hforks
  · simp [Proc.forks, hnext] at hforks
  · obtain ⟨hnext, rfl⟩ := Prod.mk.inj (ready_settled hready hset)
    -- by the command; only a list and a background command fork
    cases t with
    | exec argv =>
      cases argv with
      | nil => simp [Proc.forks, hnext, settle, switch] at hforks
      | cons w argv => simp [Proc.forks, hnext, settle, switch] at hforks
    | redir cmd file mode fd => simp [Proc.forks, hnext, settle] at hforks
    | pipe left right => simp [Proc.forks, hnext, settle, switch] at hforks
    | list left right =>
      simp only [Proc.forks, hnext, settle, switch, Option.some.injEq, Prod.mk.injEq] at hforks
      obtain ⟨rfl, rfl⟩ := hforks
      obtain ⟨hleft, hright⟩ := hready.wellFormed
      -- the child runs the left side, the parent waits
      have hq : Holds _ q (.cmd left env) {q} :=
        .cmd hf.child ⟨settle_runcmd _ _ _ _, hleft⟩ hf.childless
      refine ⟨_, [], _, ∅, .inr (hf.pipes ▸ .list),
        .seq hf.parent hright hq (fun y => ?_) hf.ne.symm, .none, Set.disjoint_empty _, ?_⟩
      · rw [hf.isChild]
        simp [hchild y]
      · intro y
        simpa using hf.covers hD y
    | back cmd =>
      simp only [Proc.forks, hnext, settle, switch, Option.some.injEq, Prod.mk.injEq] at hforks
      obtain ⟨rfl, rfl⟩ := hforks
      -- the child runs the command, the parent ends
      have hq : Holds _ q (.cmd cmd env) {q} :=
        .cmd hf.child ⟨settle_runcmd _ _ _ _, hready.wellFormed⟩ hf.childless
      refine ⟨_, _, _, _, .inr (hf.pipes ▸ .back), .exit hf.parent,
        .one hq ((hf.isChild q pid).mpr (.inl ⟨rfl, rfl⟩)) hf.parent, ?_, ?_⟩
      · exact Set.disjoint_singleton.mpr hf.ne.symm
      · intro y
        simpa using hf.covers hD y

/-- No command begins with a `wait`. -/
theorem ready_not_waits {rest : List Stmt} (hready : Ready code fds p t env)
    (hwaits : Proc.waits ⟨.shell code, fds, p⟩ = some rest) : False := by
  obtain ⟨fd, rest, hnext, -⟩ | ⟨fd, rest, hnext, -⟩ | ⟨hset, hno⟩ := settle_cases code fds p
  · simp [Proc.waits, hnext] at hwaits
  · simp [Proc.waits, hnext] at hwaits
  · obtain ⟨hnext, rfl⟩ := Prod.mk.inj (ready_settled hready hset)
    cases t with
    | exec argv =>
      cases argv with
      | nil => simp [Proc.waits, hnext, settle, switch] at hwaits
      | cons w argv => simp [Proc.waits, hnext, settle, switch] at hwaits
    | redir cmd file mode fd => simp [Proc.waits, hnext, settle] at hwaits
    | list left right => simp [Proc.waits, hnext, settle, switch] at hwaits
    | pipe left right => simp [Proc.waits, hnext, settle, switch] at hwaits
    | back cmd => simp [Proc.waits, hnext, settle, switch] at hwaits

/-- The step of a process that is at the beginning of a command. -/
theorem moves_cmd (hproc : s.proc pid = some ⟨.shell code, fds, p⟩)
    (hready : Ready code fds p t env) (hchild : ∀ x, ¬s.IsChild x pid) (hs : s.Parented)
    (h : s.step act = some s') (hx : act.actor = some pid) :
    Moves s s' pid pid (.cmd t env) {pid} := by
  cases stepped hproc h hx with
  | own hown => exact moves_cmd_own hproc hready hchild hown
  | fail hfail => exact moves_cmd_fail hproc hready hchild hfail
  | fork hforks hfree =>
    exact moves_cmd_fork hproc hready hchild hforks (forked _ _ hs hproc hfree rfl)
  | wait hwaits => exact (ready_not_waits hready hwaits).elim
  | noChild hwaits => exact (ready_not_waits hready hwaits).elim
  | exit hends => exact .exit hproc (.inr .fail)

end Command

/-- The process that was taken is no longer among those of a tree. -/
theorem Waited.covers {pr : Proc} (h : Waited s s' x q pr) (hD : ∀ y ∈ D, (s.proc y).isSome)
    (y : Pid) : y ∈ D ∧ y ≠ q ↔ (y ∈ D ∨ s.proc y = none) ∧ s'.proc y ≠ none := by
  rw [Ne, Ne, h.eq_none]
  constructor
  · rintro ⟨hy, hne⟩
    exact ⟨.inl hy, not_or.mpr ⟨hne, Option.isSome_iff_ne_none.mp (hD y hy)⟩⟩
  · rintro ⟨hy | hy, hno⟩
    · exact ⟨hy, (not_or.mp hno).1⟩
    · exact absurd (.inr hy) hno

/-- A step of a tree is one of the tree that it is a part of. `R` are the other processes there. -/
theorem Moves.below {C : Task → Task} {R : Set Pid} (h : Moves s s' x q a D)
    (hR : ∀ y ∈ R, (s.proc y).isSome ∧ (s'.proc y).isSome) (hdisj : Disjoint R D)
    (hstep : ∀ {n a n' a' bg}, Task.Step n a n' a' bg → Task.Step n (C a) n' (C a') bg)
    (hnode : ∀ {a' D'}, Holds s' q a' D' → Disjoint R D' → Holds s' pid (C a') (R ∪ D')) :
    Moves s s' x pid (C a) (R ∪ D) := by
  obtain ⟨a', bg, D', E, ha, h', hbg, hDE, hcovers⟩ := h
  -- What is new in the tree was not there before.
  have hout : ∀ y ∈ R, y ∉ D' ∧ y ∉ E := by
    intro y hy
    rw [← not_or, hcovers]
    rintro ⟨hD | hno, -⟩
    · exact Set.disjoint_left.mp hdisj hy hD
    · simpa [hno] using (hR y hy).1
  refine ⟨C a', bg, R ∪ D', E, ?_, hnode h' (Set.disjoint_left.mpr fun y hy => (hout y hy).1), hbg,
    ?_, fun y => ?_⟩
  · exact ha.imp (fun ⟨heq, hrest⟩ => ⟨congrArg C heq, hrest⟩) hstep
  · exact Set.disjoint_union_left.mpr ⟨Set.disjoint_left.mpr fun y hy => (hout y hy).2, hDE⟩
  · rw [Set.mem_union, Set.mem_union, or_assoc, hcovers y]
    constructor
    · rintro (hy | ⟨hy, hsome⟩)
      · exact ⟨.inl (.inl hy), Option.isSome_iff_ne_none.mp (hR y hy).2⟩
      · exact ⟨hy.imp_left .inr, hsome⟩
    · rintro ⟨(hy | hy) | hy, hsome⟩
      · exact .inl hy
      · exact .inr ⟨.inl hy, hsome⟩
      · exact .inr ⟨.inr hy, hsome⟩

/-- A tree below another process, which takes no part in the step, is as it was. -/
theorem Holds.frame_below (h : Holds s q a D) (hq : s.IsChild q pid) (hne : pid ≠ x) (hxD : x ∉ D)
    (hstep : s.step act = some s') (hx : act.actor = some x) : Frame s s' D := by
  refine step_frame hstep (fun y hy => Option.some.inj (hx.symm.trans hy) ▸ hxD) ?_ h.alive
  intro r hr hrD
  have hchild := taken_isChild hstep hx hr
  obtain rfl | ⟨z, hz, hchild'⟩ := h.isChild_of_mem hrD
  · exact hne (isChild_unique hq hchild)
  · exact hxD (isChild_unique hchild hchild' ▸ hz)

/-- The process that is taken leaves its parent alone. -/
theorem mem_taken (hxq : x ≠ q) (y : Pid) :
    y ∈ ({x} : Set Pid) ∨ y ∈ (∅ : Set Pid) ↔ y ∈ insert x ({q} : Set Pid) ∧ y ≠ q := by
  rw [Set.mem_insert_iff, Set.mem_singleton_iff, Set.mem_singleton_iff]
  constructor
  · rintro (rfl | hno)
    · exact ⟨.inl rfl, hxq⟩
    · exact hno.elim
  · rintro ⟨hy | hy, hne⟩
    · exact .inl hy
    · exact absurd hy hne

/-- The process at the root that takes no part in the step is as it was. -/
theorem frame_root {pr : Proc} (hproc : s.proc pid = some pr) (hne : pid ≠ x)
    (htaken : act.taken ≠ some pid) (hstep : s.step act = some s') (hx : act.actor = some x) :
    Frame s s' {pid} := by
  refine step_frame hstep ?_ ?_ (by simp [hproc])
  · intro y hy
    obtain rfl := Option.some.inj (hx.symm.trans hy)
    exact hne.symm
  · rintro r hr rfl
    exact htaken hr

/-- Removing a reaped child from the tree. -/
theorem mem_without {F : Set Pid} (hx : x ∉ ({q} : Set Pid)) (hq : q ∉ F) (y : Pid) :
    y ∈ insert x F ↔ y ∈ insert x ({q} ∪ F) ∧ y ≠ q := by
  simp only [Set.mem_insert_iff, Set.mem_union, Set.mem_singleton_iff]
  constructor
  · rintro (rfl | hy)
    · exact ⟨.inl rfl, hx⟩
    · exact ⟨.inr (.inr hy), ne_of_mem_of_not_mem hy hq⟩
  · rintro ⟨hy | hy | hy, hne⟩
    · exact .inl hy
    · exact absurd hy hne
    · exact .inr hy

section Below

variable {rest : List Stmt} {fds : Fds} {p : ℕ × ℕ}

/-- The last child of a process is taken. -/
theorem moves_last {code : List Stmt} {c : Task} (a' : Task)
    (hproc : s.proc pid = some ⟨.shell code, fds, p⟩) (hnext : next code = .wait :: rest)
    (hq : Holds s q a D) (hchild : ∀ y, s.IsChild y pid ↔ y = q) (hD : pid ∉ D)
    (hstep : s.step act = some s') (hx : act.actor = some pid)
    (hdone : a = .done → a' = c ∨ Task.Step s.pipes c s.pipes a' [])
    (hnode : s'.proc pid = some ⟨.shell rest, fds, p⟩ → (∀ y, ¬s'.IsChild y pid) →
      Holds s' pid a' {pid}) :
    Moves s s' pid pid c (insert pid D) := by
  obtain ⟨q', -, hw⟩ := step_at_wait hproc hnext ((hchild q).mpr rfl) hstep hx
  obtain rfl : q' = q := (hchild q').mp hw.taken
  obtain ⟨_, _, hz⟩ := hw.zombie
  obtain ⟨rfl, rfl⟩ := hq.of_zombie hz
  have halive : ∀ y ∈ insert pid ({q'} : Set Pid), (s.proc y).isSome := by
    rintro y (rfl | rfl)
    · simp [hproc]
    · simp [hz]
  refine ⟨a', [], {pid}, ∅, ?_, hnode hw.parent fun y hy => ?_, .none, Set.disjoint_empty _,
    fun y => ?_⟩
  · rw [hw.pipes]
    exact (hdone rfl).imp_left fun h => ⟨h, rfl, rfl⟩
  · obtain ⟨hne, hold⟩ := (hw.isChild y pid).mp hy
    exact hne ((hchild y).mp hold)
  · rw [← hw.covers halive]
    exact mem_taken hD y

/-- A step in the only tree below a process. -/
theorem moves_below {C : Task → Task} {pr : Proc} (hproc : s.proc pid = some pr)
    (ih : Moves s s' x q a D) (hchild : ∀ y, s.IsChild y pid ↔ y = q) (hD : pid ∉ D)
    (hxD : x ∈ D) (hstep : s.step act = some s') (hx : act.actor = some x)
    (htaken : act.taken ≠ some pid)
    (hctx : ∀ {n a n' a' bg}, Task.Step n a n' a' bg → Task.Step n (C a) n' (C a') bg)
    (hnode : ∀ {a' D'}, s'.proc pid = some pr → Holds s' q a' D' →
      (∀ y, s'.IsChild y pid ↔ y = q) → pid ∉ D' → Holds s' pid (C a') (insert pid D')) :
    Moves s s' x pid (C a) (insert pid D) := by
  have hne : pid ≠ x := fun heq => hD (heq ▸ hxD)
  have hframe := frame_root hproc hne htaken hstep hx
  have hproc' : s'.proc pid = some pr := (hframe.proc pid rfl).trans hproc
  rw [Set.insert_eq]
  refine ih.below ?_ (Set.disjoint_singleton_left.mpr hD) hctx fun h' hdisj => ?_
  · rintro y rfl
    simp [hproc, hproc']
  · rw [← Set.insert_eq]
    exact hnode hproc' h' (fun y => (hframe.isChild y pid rfl).trans (hchild y))
      (Set.disjoint_singleton_left.mp hdisj)

/-- A process closes an end of the pipe, and the tree below it is as it was. -/
theorem moves_close {fd : Arg} {ends : List Arg} {k : ℕ}
    (hproc : s.proc pid = some ⟨.shell (closing (fd :: ends) k), fds, p⟩)
    (halive : ∀ y ∈ insert pid D, (s.proc y).isSome) (hD : pid ∉ D) (hstep : s.step act = some s')
    (hx : act.actor = some pid)
    (hnode : ∀ fds', s'.proc pid = some ⟨.shell (closing ends k), fds', p⟩ → Frame s s' D →
      (∀ y, s'.IsChild y pid ↔ s.IsChild y pid) → Holds s' pid a (insert pid D)) :
    Moves s s' pid pid a (insert pid D) := by
  obtain ⟨hnone, rfl⟩ := step_at_close hproc rfl hstep hx
  have hframe := step_frame (D := D) hstep
    (fun y hy => Option.some.inj (hx.symm.trans hy) ▸ hD) (by simp [hnone])
    fun y hy => halive y (.inr hy)
  refine .root (n := s.pipes) halive hproc rfl (.inl ⟨rfl, rfl⟩) ?_
  exact hnode _ (s.set_self pid _) hframe fun y => isChild_set hproc _ s.pipes y pid

/-- The end of a pipeline with one side, the other having ended or not having been started. -/
theorem moves_closing {C : Task → Task} {ends : List Arg} {k : ℕ}
    (hproc : s.proc pid = some ⟨.shell (closing ends (k + 1)), fds, p⟩) (hq : Holds s q a D)
    (hchild : ∀ y, s.IsChild y pid ↔ y = q) (hD : pid ∉ D) (hstep : s.step act = some s')
    (hx : act.actor = some pid) (hC : C .done = .par .done .done)
    (hnode : ∀ {s'' : Sys} {fds' ends'},
      s''.proc pid = some ⟨.shell (closing ends' (k + 1)), fds', p⟩ → Holds s'' q a D →
      (∀ y, s''.IsChild y pid ↔ y = q) → Holds s'' pid (C a) (insert pid D)) :
    Moves s s' pid pid (C a) (insert pid D) := by
  cases ends with
  | nil =>
    refine moves_last (.par .done .done) hproc rfl hq hchild hD hstep hx ?_
      fun hproc' hchild' => .neither (e := []) hproc' hchild'
    rintro rfl
    exact .inl hC.symm
  | cons fd ends =>
    refine moves_close hproc ?_ hD hstep hx fun fds' hproc' hframe hsame => ?_
    · rintro y (rfl | hy)
      · simp [hproc]
      · exact hq.alive y hy
    · exact hnode hproc' (hq.frame hframe) fun y => (hsame y).trans (hchild y)

/-- The end of a pipeline no side of which is left: `wait` returns at once. -/
theorem moves_neither {ends : List Arg} {k : ℕ}
    (hproc : s.proc pid = some ⟨.shell (closing ends k), fds, p⟩)
    (hchild : ∀ y, ¬s.IsChild y pid) (hstep : s.step act = some s') (hx : act.actor = some pid) :
    Moves s s' pid pid (.par .done .done) {pid} := by
  have halive : ∀ y ∈ ({pid} : Set Pid), (s.proc y).isSome := by
    rintro y rfl
    simp [hproc]
  match ends, k with
  | fd :: ends, k =>
    obtain ⟨-, rfl⟩ := step_at_close hproc rfl hstep hx
    refine .root (n := s.pipes) halive hproc rfl (.inl ⟨rfl, rfl⟩) ?_
    exact .neither (e := ends) (k := k) (s.set_self pid _)
      fun y => (isChild_set hproc _ s.pipes y pid).not.mpr (hchild y)
  | [], k + 1 =>
    obtain rfl := step_at_wait_none hproc rfl hchild hstep hx
    refine .root (n := s.pipes) halive hproc rfl (.inl ⟨rfl, rfl⟩) ?_
    exact .neither (e := []) (k := k) (s.set_self pid _)
      fun y => (isChild_set hproc _ s.pipes y pid).not.mpr (hchild y)
  | [], 0 =>
    obtain rfl := step_at_exit hproc rfl hstep hx
    exact .exit hproc (.inr .parDone)

/-- The left side of a list has not been started, and the `wait` behind it returns at once. -/
theorem moves_seqNone {t : Cmd} {env : Env}
    (hproc : s.proc pid = some ⟨.shell [.wait, .runcmd t, .exit], env.fds, p⟩)
    (hwf : t.WellFormed) (hchild : ∀ y, ¬s.IsChild y pid) (hstep : s.step act = some s')
    (hx : act.actor = some pid) : Moves s s' pid pid (.seq .done t env) {pid} := by
  obtain rfl := step_at_wait_none hproc rfl hchild hstep hx
  refine .root (n := s.pipes) (by simp [hproc]) hproc rfl (.inr .seqDone) ?_
  exact .cmd (s.set_self pid _) ⟨settle_runcmd _ _ _ _, hwf⟩
    fun y => (isChild_set hproc _ s.pipes y pid).not.mpr (hchild y)

end Below

section Pipeline

variable {left right : Cmd} {env : Env} {n : ℕ}

/-- The first `fork1` of a pipeline. -/
theorem moves_pipe (hproc : s.proc pid = some ⟨.shell (pipeline left right), pipeFds env n, (3, 4)⟩)
    (hwf : left.WellFormed ∧ right.WellFormed) (hchild : ∀ y, ¬s.IsChild y pid) (hs : s.Parented)
    (hstep : s.step act = some s') (hx : act.actor = some pid) :
    Moves s s' pid pid (.par (.cmd left { env with stdout := .pipeWrite n })
      (.cmd right { env with stdin := .pipeRead n })) {pid} := by
  obtain ⟨-, ⟨q, hf⟩ | rfl⟩ := step_at_fork hproc rfl hs hstep hx
  · have hq : Holds s' q (.cmd left { env with stdout := .pipeWrite n }) {q} :=
      .cmd hf.child ⟨settle_left left env n, hwf.1⟩ hf.childless
    refine ⟨_, [], insert pid {q}, ∅, .inl ⟨rfl, rfl, hf.pipes⟩,
      .half hf.parent hwf.2 hq (fun y => ?_) hf.ne.symm, .none, Set.disjoint_empty _, fun y => ?_⟩
    · rw [hf.isChild]
      simp [hchild y]
    · simpa using hf.covers (D := {pid}) (by simp [hproc]) y
  · refine .root (n := s.pipes) (by simp [hproc]) hproc rfl (.inr (.left .fail)) ?_
    exact .halfNone (s.set_self pid _) hwf.2
      fun y => (isChild_set hproc _ s.pipes y pid).not.mpr (hchild y)

/-- The second `fork1`, when the left side has been started. -/
theorem moves_half (hproc : s.proc pid = some ⟨.shell (pipelineRight right), pipeFds env n, (3, 4)⟩)
    (hwf : right.WellFormed) (hq : Holds s q a D) (hchild : ∀ y, s.IsChild y pid ↔ y = q)
    (hD : pid ∉ D) (hs : s.Parented) (hstep : s.step act = some s') (hx : act.actor = some pid) :
    Moves s s' pid pid (.par a (.cmd right { env with stdin := .pipeRead n })) (insert pid D) := by
  have halive : ∀ y ∈ insert pid D, (s.proc y).isSome := by
    rintro y (rfl | hy)
    · simp [hproc]
    · exact hq.alive y hy
  obtain ⟨hnone, hstep'⟩ := step_at_fork hproc rfl hs hstep hx
  have hq' := hq.frame (step_frame hstep
    (fun y hy => Option.some.inj (hx.symm.trans hy) ▸ hD) (by simp [hnone]) hq.alive)
  obtain ⟨r, hf⟩ | rfl := hstep'
  · have hr : Holds s' r (.cmd right { env with stdin := .pipeRead n }) {r} :=
      .cmd hf.child ⟨settle_right right env n, hwf⟩ hf.childless
    have hrD : r ∉ D := fun hmem => by simpa [hf.free] using hq.alive r hmem
    refine ⟨_, [], insert pid (D ∪ {r}), ∅, .inl ⟨rfl, rfl, hf.pipes⟩,
      .both hf.parent hq' hr (fun y => ?_) hD hf.ne.symm
        (Set.disjoint_singleton_right.mpr hrD), .none, Set.disjoint_empty _, fun y => ?_⟩
    · rw [hf.isChild, hchild]
      simp [or_comm]
    · rw [← hf.covers halive]
      simp only [Set.mem_insert_iff, Set.mem_union, Set.mem_singleton_iff,
        Set.mem_empty_iff_false, or_false, or_assoc]
  · refine .root (n := s.pipes) halive hproc rfl (.inr (.right .fail)) ?_
    exact .rightDone (e := [.p0, .p1]) (k := 1) (s.set_self pid _) hq'
      (fun y => (isChild_set hproc _ s.pipes y pid).trans (hchild y)) hD

/-- The second `fork1`, when the left side has not been started. -/
theorem moves_halfNone
    (hproc : s.proc pid = some ⟨.shell (pipelineRight right), pipeFds env n, (3, 4)⟩)
    (hwf : right.WellFormed) (hchild : ∀ y, ¬s.IsChild y pid) (hs : s.Parented)
    (hstep : s.step act = some s') (hx : act.actor = some pid) :
    Moves s s' pid pid (.par .done (.cmd right { env with stdin := .pipeRead n })) {pid} := by
  obtain ⟨-, ⟨r, hf⟩ | rfl⟩ := step_at_fork hproc rfl hs hstep hx
  · have hr : Holds s' r (.cmd right { env with stdin := .pipeRead n }) {r} :=
      .cmd hf.child ⟨settle_right right env n, hwf⟩ hf.childless
    refine ⟨_, [], insert pid {r}, ∅, .inl ⟨rfl, rfl, hf.pipes⟩,
      .leftDone (e := [.p0, .p1]) (k := 1) hf.parent hr (fun y => ?_) hf.ne.symm, .none,
      Set.disjoint_empty _, fun y => ?_⟩
    · rw [hf.isChild]
      simp [hchild y]
    · simpa using hf.covers (D := {pid}) (by simp [hproc]) y
  · refine .root (n := s.pipes) (by simp [hproc]) hproc rfl (.inr (.right .fail)) ?_
    exact .neither (e := [.p0, .p1]) (k := 2) (s.set_self pid _)
      fun y => (isChild_set hproc _ s.pipes y pid).not.mpr (hchild y)

end Pipeline

section Both

variable {r : Pid} {fds : Fds} {p : ℕ × ℕ} {ends : List Arg}

/-- One side of a pipeline has ended. What is left is to wait for the other. -/
theorem moves_both_wait (hproc : s.proc pid = some ⟨.shell (closing [] 2), fds, p⟩)
    (hq : Holds s q a D) (hr : Holds s r b E) (hchild : ∀ y, s.IsChild y pid ↔ y = q ∨ y = r)
    (hD : pid ∉ D) (hE : pid ∉ E) (hDE : Disjoint D E) (hstep : s.step act = some s')
    (hx : act.actor = some pid) : Moves s s' pid pid (.par a b) (insert pid (D ∪ E)) := by
  -- the three parts are alive
  have halive : ∀ y ∈ insert pid (D ∪ E), (s.proc y).isSome := by
    rintro y (rfl | hy | hy)
    · simp [hproc]
    · exact hq.alive y hy
    · exact hr.alive y hy
  -- the step reaps one of the two children, which was a zombie
  obtain ⟨k, htaken, hw⟩ := step_at_wait hproc rfl ((hchild q).mpr (.inl rfl)) hstep hx
  obtain ⟨_, _, hz⟩ := hw.zombie
  -- what does not hold it is untouched
  have hframe : ∀ {F : Set Pid}, pid ∉ F → k ∉ F → (∀ y ∈ F, (s.proc y).isSome) →
      Frame s s' F := fun hxF hkF =>
    step_frame hstep (fun y hy => Option.some.inj (hx.symm.trans hy) ▸ hxF)
      fun y hy => Option.some.inj (htaken.symm.trans hy) ▸ hkF
  have hcovers := hw.covers halive
  have hleft : ∀ y, s'.IsChild y pid ↔ y ≠ k ∧ (y = q ∨ y = r) :=
    fun y => (hw.isChild y pid).trans (and_congr_right fun _ => hchild y)
  -- the left one, or the right one
  obtain rfl | rfl := (hchild k).mp hw.taken
  · obtain ⟨rfl, rfl⟩ := hq.of_zombie hz
    have hkE := Set.disjoint_singleton_left.mp hDE
    have hne : r ≠ k := ne_of_mem_of_not_mem hr.mem hkE
    refine ⟨_, [], insert pid E, ∅, .inl ⟨rfl, rfl, hw.pipes⟩,
      .leftDone (e := []) (k := 0) hw.parent (hr.frame (hframe hE hkE hr.alive)) (fun y => ?_) hE,
      .none, Set.disjoint_empty _, fun y => ?_⟩
    · rw [hleft]
      exact ⟨fun ⟨hy, h⟩ => h.resolve_left hy, fun h => ⟨h ▸ hne, .inr h⟩⟩
    · rw [← hcovers, or_iff_left (Set.notMem_empty y)]
      exact mem_without hD hkE y
  · obtain ⟨rfl, rfl⟩ := hr.of_zombie hz
    have hkD := Set.disjoint_singleton_right.mp hDE
    have hne : q ≠ k := ne_of_mem_of_not_mem hq.mem hkD
    refine ⟨_, [], insert pid D, ∅, .inl ⟨rfl, rfl, hw.pipes⟩,
      .rightDone (e := []) (k := 0) hw.parent (hq.frame (hframe hD hkD hq.alive)) (fun y => ?_)
        hD, .none, Set.disjoint_empty _, fun y => ?_⟩
    · rw [hleft]
      exact ⟨fun ⟨hy, h⟩ => h.resolve_right hy, fun h => ⟨h ▸ hne, .inl h⟩⟩
    · rw [← hcovers, or_iff_left (Set.notMem_empty y), Set.union_comm]
      exact mem_without hE hkD y

/-- The process of a pipeline with both sides takes a step. -/
theorem moves_both (hproc : s.proc pid = some ⟨.shell (closing ends 2), fds, p⟩)
    (hq : Holds s q a D) (hr : Holds s r b E) (hchild : ∀ y, s.IsChild y pid ↔ y = q ∨ y = r)
    (hD : pid ∉ D) (hE : pid ∉ E) (hDE : Disjoint D E) (hstep : s.step act = some s')
    (hx : act.actor = some pid) : Moves s s' pid pid (.par a b) (insert pid (D ∪ E)) := by
  cases ends with
  | nil => exact moves_both_wait hproc hq hr hchild hD hE hDE hstep hx
  | cons fd ends =>
    refine moves_close hproc ?_ (not_or.mpr ⟨hD, hE⟩) hstep hx fun fds' hproc' hframe hsame => ?_
    · rintro y (rfl | hy | hy)
      · simp [hproc]
      · exact hq.alive y hy
      · exact hr.alive y hy
    · exact .both hproc' (hq.frame (hframe.mono Set.subset_union_left))
        (hr.frame (hframe.mono Set.subset_union_right)) (fun y => (hsame y).trans (hchild y)) hD hE
        hDE

/-- The left side takes a step, and the right one is as it was. -/
theorem moves_left (hproc : s.proc pid = some ⟨.shell (closing ends 2), fds, p⟩)
    (ih : Moves s s' x q a D) (hr : Holds s r b E)
    (hchild : ∀ y, s.IsChild y pid ↔ y = q ∨ y = r) (hD : pid ∉ D) (hE : pid ∉ E)
    (hDE : Disjoint D E) (hxD : x ∈ D) (hstep : s.step act = some s') (hx : act.actor = some x)
    (htaken : act.taken ≠ some pid) : Moves s s' x pid (.par a b) (insert pid (D ∪ E)) := by
  have hne : pid ≠ x := fun heq => hD (heq ▸ hxD)
  have hframe :=
    hr.frame_below ((hchild r).mpr (.inr rfl)) hne (Set.disjoint_left.mp hDE hxD) hstep hx
  have hroot := frame_root hproc hne htaken hstep hx
  have hR : insert pid (D ∪ E) = insert pid E ∪ D := by rw [Set.insert_union, Set.union_comm D]
  rw [hR]
  refine ih.below (C := fun a => .par a b) ?_ ?_ .left ?_
  · rintro y (rfl | hy)
    · simp [hproc, hroot.proc _ rfl]
    · exact ⟨hr.alive y hy, by rw [hframe.proc y hy]; exact hr.alive y hy⟩
  · exact Set.disjoint_left.mpr fun y hy hyD => hy.elim (fun h => hD (h ▸ hyD))
      fun hyE => Set.disjoint_left.mp hDE hyD hyE
  · intro a' D' hq' hdisj
    rw [Set.insert_union, Set.union_comm E]
    have hdisj' := Set.disjoint_left.mp hdisj
    exact .both ((hroot.proc _ rfl).trans hproc) hq' (hr.frame hframe)
      (fun y => (hroot.isChild y _ rfl).trans (hchild y)) (hdisj' (Set.mem_insert _ _)) hE
      (Set.disjoint_right.mpr fun y hy => hdisj' (Set.mem_insert_of_mem _ hy))

/-- The right side takes a step, and the left one is as it was. -/
theorem moves_right (hproc : s.proc pid = some ⟨.shell (closing ends 2), fds, p⟩)
    (hq : Holds s q a D) (ih : Moves s s' x r b E)
    (hchild : ∀ y, s.IsChild y pid ↔ y = q ∨ y = r) (hD : pid ∉ D) (hE : pid ∉ E)
    (hDE : Disjoint D E) (hxE : x ∈ E) (hstep : s.step act = some s') (hx : act.actor = some x)
    (htaken : act.taken ≠ some pid) : Moves s s' x pid (.par a b) (insert pid (D ∪ E)) := by
  have hne : pid ≠ x := fun heq => hE (heq ▸ hxE)
  have hframe :=
    hq.frame_below ((hchild q).mpr (.inl rfl)) hne (Set.disjoint_right.mp hDE hxE) hstep hx
  have hroot := frame_root hproc hne htaken hstep hx
  rw [← Set.insert_union]
  refine ih.below (C := fun b => .par a b) ?_ ?_ .right ?_
  · rintro y (rfl | hy)
    · simp [hproc, hroot.proc _ rfl]
    · exact ⟨hq.alive y hy, by rw [hframe.proc y hy]; exact hq.alive y hy⟩
  · exact Set.disjoint_left.mpr fun y hy hyE => hy.elim (fun h => hE (h ▸ hyE))
      fun hyD => Set.disjoint_left.mp hDE hyD hyE
  · intro b' E' hr' hdisj
    rw [Set.insert_union]
    have hdisj' := Set.disjoint_left.mp hdisj
    exact .both ((hroot.proc _ rfl).trans hproc) (hq.frame hframe) hr'
      (fun y => (hroot.isChild y _ rfl).trans (hchild y)) hD (hdisj' (Set.mem_insert _ _))
      (Set.disjoint_left.mpr fun y hy => hdisj' (Set.mem_insert_of_mem _ hy))

end Both

/-- Every step of a process in a tree is a step of the task, or leaves it as it is. By induction on
the tree: the process is the root, or it is in one of the trees below. -/
theorem Holds.moves (h : Holds s pid a D) (hs : s.Parented) (hstep : s.step act = some s')
    (hx : act.actor = some x) (hmem : x ∈ D) (htaken : act.taken ≠ some pid) :
    Moves s s' x pid a D := by
  -- No child of another process is taken.
  have hkept : ∀ {q pid}, s.IsChild q pid → pid ≠ x → act.taken ≠ some q := fun hq hne htaken =>
    hne (isChild_unique hq (taken_isChild hstep hx htaken))
  induction h with
  | cmd hproc hready hchild =>
    obtain rfl : x = _ := hmem
    exact moves_cmd hproc hready hchild hs hstep hx
  | program hproc hchild =>
    obtain rfl : x = _ := hmem
    obtain rfl := step_at_program hproc hstep hx
    exact .exit hproc (.inr .program)
  | zombie hproc hchild =>
    obtain rfl : x = _ := hmem
    exact (step_at_zombie hproc hstep hx).elim
  | exit hproc =>
    obtain rfl : x = _ := hmem
    obtain rfl := step_at_exit hproc rfl hstep hx
    exact .exit hproc (.inl rfl)
  | @seq pid q a D t env p hproc hwf hq hchild hD ih =>
    obtain rfl | hxD := hmem
    · refine moves_last (.cmd t env) hproc rfl hq hchild hD hstep hx ?_ ?_
      · rintro rfl
        exact .inr .seqDone
      · exact fun hproc' hchild' => .cmd hproc' ⟨settle_runcmd _ _ _ _, hwf⟩ hchild'
    · have hne : pid ≠ x := fun heq => hD (heq ▸ hxD)
      have ih := ih hxD (hkept ((hchild q).mpr rfl) hne)
      exact moves_below (C := fun a => .seq a t env) hproc ih hchild hD hxD hstep hx htaken .seq
        fun hproc' hq' hchild' hD' => .seq hproc' hwf hq' hchild' hD'
  | seqNone hproc hwf hchild =>
    obtain rfl : x = _ := hmem
    exact moves_seqNone hproc hwf hchild hstep hx
  | pipe hproc hwf hchild =>
    obtain rfl : x = _ := hmem
    exact moves_pipe hproc hwf hchild hs hstep hx
  | @half pid q a D right env n hproc hwf hq hchild hD ih =>
    obtain rfl | hxD := hmem
    · exact moves_half hproc hwf hq hchild hD hs hstep hx
    · have hne : pid ≠ x := fun heq => hD (heq ▸ hxD)
      have ih := ih hxD (hkept ((hchild q).mpr rfl) hne)
      exact moves_below (C := fun a => .par a (.cmd right _)) hproc ih hchild hD hxD hstep hx
        htaken .left fun hproc' hq' hchild' hD' => .half hproc' hwf hq' hchild' hD'
  | halfNone hproc hwf hchild =>
    obtain rfl : x = _ := hmem
    exact moves_halfNone hproc hwf hchild hs hstep hx
  | @both pid q r a b D E fds p ends hproc hq hr hchild hD hE hDE ihq ihr =>
    obtain rfl | hxD | hxE := hmem
    · exact moves_both hproc hq hr hchild hD hE hDE hstep hx
    · have hne : pid ≠ x := fun heq => hD (heq ▸ hxD)
      have ih := ihq hxD (hkept ((hchild q).mpr (.inl rfl)) hne)
      exact moves_left hproc ih hr hchild hD hE hDE hxD hstep hx htaken
    · have hne : pid ≠ x := fun heq => hE (heq ▸ hxE)
      have ih := ihr hxE (hkept ((hchild r).mpr (.inr rfl)) hne)
      exact moves_right hproc hq ih hchild hD hE hDE hxE hstep hx htaken
  | @leftDone pid r b E fds p ends k hproc hr hchild hE ih =>
    obtain rfl | hxE := hmem
    · exact moves_closing (C := fun b => .par .done b) hproc hr hchild hE hstep hx rfl
        fun hproc' hr' hchild' => .leftDone hproc' hr' hchild' hE
    · have hne : pid ≠ x := fun heq => hE (heq ▸ hxE)
      have ih := ih hxE (hkept ((hchild r).mpr rfl) hne)
      exact moves_below (C := fun b => .par .done b) hproc ih hchild hE hxE hstep hx htaken .right
        fun hproc' hr' hchild' hE' => .leftDone hproc' hr' hchild' hE'
  | @rightDone pid q a D fds p ends k hproc hq hchild hD ih =>
    obtain rfl | hxD := hmem
    · exact moves_closing (C := fun a => .par a .done) hproc hq hchild hD hstep hx rfl
        fun hproc' hq' hchild' => .rightDone hproc' hq' hchild' hD
    · have hne : pid ≠ x := fun heq => hD (heq ▸ hxD)
      have ih := ih hxD (hkept ((hchild q).mpr rfl) hne)
      exact moves_below (C := fun a => .par a .done) hproc ih hchild hD hxD hstep hx htaken .left
        fun hproc' hq' hchild' hD' => .rightDone hproc' hq' hchild' hD'
  | neither hproc hchild =>
    obtain rfl : x = _ := hmem
    exact moves_neither hproc hchild hstep hx

end UnixV6.Sh
