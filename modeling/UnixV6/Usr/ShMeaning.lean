import UnixV6.Usr.ShProcess

/-!
# What a command line does (`usr/sh.c`)

The meaning of a line without processes: a command runs in an environment of three open files. `;`
is one after the other, `|` is side by side with a pipe between, `&` goes on without waiting, and a
redirection changes one of the files. A call that fails leaves out the rest of its command; a side
of `;` or `|` that cannot be started is left out alone.
-/

namespace UnixV6.Sh

open Usr

/-- The standard input, output and error of a command. No other file is open. -/
structure Env where
  stdin : Desc
  stdout : Desc
  stderr : Desc
  deriving DecidableEq

namespace Env

/-- The descriptors of a process in the environment. -/
def fds (env : Env) : Fds
  | 0 => some env.stdin
  | 1 => some env.stdout
  | 2 => some env.stderr
  | _ => none

/-- Where a redirection changes the environment. -/
def redirect (env : Env) (file : Word) (mode : Mode) : Env :=
  match mode with
  | .O_READ => { env with stdin := .file file mode }
  | .O_WRITE => { env with stdout := .file file mode }
  | .O_APPEND => { env with stdout := .file file mode }

end Env

/-- A command that is under way. -/
inductive Task
  | done
  | program (path : List Chr) (argv : List Word) (env : Env)
  | cmd (t : Cmd) (env : Env)
  /-- `t` comes after what is under way. -/
  | seq (left : Task) (t : Cmd) (env : Env)
  | par (left right : Task)

/-- A step of a command, with the number of pipes and what goes on without it. -/
inductive Task.Step : ℕ → Task → ℕ → Task → List Task → Prop
  | exec {n env w argv} :
      Step n (.cmd (.exec (w :: argv)) env) n (.program (bincmd w) (w :: argv) env) []
  | program {n path argv env} : Step n (.program path argv env) n .done []
  | redir {n cmd file mode fd env} :
      Step n (.cmd (.redir cmd file mode fd) env) n (.cmd cmd (env.redirect file mode)) []
  | list {n left right env} :
      Step n (.cmd (.list left right) env) n (.seq (.cmd left env) right env) []
  /-- The left side cannot be started. -/
  | listFail {n left right env} : Step n (.cmd (.list left right) env) n (.seq .done right env) []
  | pipe {n left right env} :
      Step n (.cmd (.pipe left right) env) (n + 1)
        (.par (.cmd left { env with stdout := .pipeWrite n })
          (.cmd right { env with stdin := .pipeRead n })) []
  | back {n cmd env} : Step n (.cmd (.back cmd) env) n .done [.cmd cmd env]
  /-- There is nothing to do, or a call fails. -/
  | fail {n t env} : Step n (.cmd t env) n .done []
  | seq {n a n' a' bg t env} (h : Step n a n' a' bg) : Step n (.seq a t env) n' (.seq a' t env) bg
  | seqDone {n t env} : Step n (.seq .done t env) n (.cmd t env) []
  | left {n a n' a' bg b} (h : Step n a n' a' bg) : Step n (.par a b) n' (.par a' b) bg
  | right {n a b n' b' bg} (h : Step n b n' b' bg) : Step n (.par a b) n' (.par a b') bg
  | parDone {n} : Step n (.par .done .done) n .done []

/-- The commands that are under way, and the number of pipes. -/
abbrev Tasks : Type := ℕ × List Task

/-- A step of one of the commands. -/
inductive Tasks.Step : Tasks → Tasks → Prop
  | task {n a n' a' bg} (h : Task.Step n a n' a' bg) (l₁ l₂ : List Task) :
      Step (n, l₁ ++ a :: l₂) (n', l₁ ++ a' :: bg ++ l₂)
  | done {n} (l₁ l₂ : List Task) : Step (n, l₁ ++ .done :: l₂) (n, l₁ ++ l₂)

/-- The programs that run. -/
def Task.programs : Task → List (List Chr × List Word × Env)
  | program path argv env => [(path, argv, env)]
  | seq left _ _ => left.programs
  | par left right => left.programs ++ right.programs
  | _ => []

/-- Redirections are of the descriptors that the parser gives them. -/
def Cmd.WellFormed : Cmd → Prop
  | exec _ => True
  | redir cmd _ mode fd => fd = mode.fd ∧ cmd.WellFormed
  | pipe left right => left.WellFormed ∧ right.WellFormed
  | list left right => left.WellFormed ∧ right.WellFormed
  | back cmd => cmd.WellFormed

variable {n m : ℕ} {a : Task} {ts ts' : List Task} {left right : Cmd} {env : Env}

/-- A step of some of the tasks is one of them all. -/
theorem Tasks.Step.cons (h : Tasks.Step (n, ts) (m, ts')) (a : Task) :
    Tasks.Step (n, a :: ts) (m, a :: ts') := by
  cases h with
  | task h l₁ l₂ => exact .task h (a :: l₁) l₂
  | done l₁ l₂ => exact .done (a :: l₁) l₂

/-- A step of a row of tasks is one of the first or one of the others. -/
theorem Tasks.Step.cons_cases (h : Tasks.Step (n, a :: ts) (m, ts')) :
    (∃ a' bg, Task.Step n a m a' bg ∧ ts' = a' :: bg ++ ts) ∨
      (a = .done ∧ m = n ∧ ts' = ts) ∨ ∃ ts₁, ts' = a :: ts₁ ∧ Tasks.Step (n, ts) (m, ts₁) := by
  generalize hc : (n, a :: ts) = c at h
  generalize hd : (m, ts') = d at h
  cases h with
  | @task _ b _ b' bg h l₁ l₂ =>
    obtain ⟨rfl, hts⟩ := Prod.mk.inj hc
    obtain ⟨rfl, rfl⟩ := Prod.mk.inj hd
    cases l₁ with
    | nil =>
      obtain ⟨rfl, rfl⟩ := List.cons.inj hts
      exact .inl ⟨b', bg, h, rfl⟩
    | cons c l₁ =>
      obtain ⟨rfl, rfl⟩ := List.cons.inj hts
      exact .inr (.inr ⟨_, rfl, .task h l₁ l₂⟩)
  | done l₁ l₂ =>
    obtain ⟨rfl, hts⟩ := Prod.mk.inj hc
    obtain ⟨rfl, rfl⟩ := Prod.mk.inj hd
    cases l₁ with
    | nil =>
      obtain ⟨rfl, rfl⟩ := List.cons.inj hts
      exact .inr (.inl ⟨rfl, rfl, rfl⟩)
    | cons c l₁ =>
      obtain ⟨rfl, rfl⟩ := List.cons.inj hts
      exact .inr (.inr ⟨_, rfl, .done l₁ l₂⟩)

theorem Tasks.not_step_nil {c : Tasks} : ¬Tasks.Step (n, []) c := by
  intro h
  generalize hc : (n, ([] : List Task)) = d at h
  cases h <;> simp at hc

/-! ## One after the other -/

/-- The moments of `left ; right`. -/
inductive ListRun (n : ℕ) (left right : Cmd) (env : Env) : Tasks → Prop
  /-- Before the left side is started. -/
  | start : ListRun n left right env (n, [.cmd (.list left right) env])
  /-- It cannot be started. -/
  | failed (ts : List Task) (h : ts = [.done] ∨ ts = []) : ListRun n left right env (n, ts)
  /-- The left side runs. -/
  | left {m a bg} (h : Relation.ReflTransGen Tasks.Step (n, [.cmd left env]) (m, a :: bg)) :
      ListRun n left right env (m, .seq a right env :: bg)
  /-- The right side runs, and what the left one has not waited for. -/
  | right {k bg c} (hl : Relation.ReflTransGen Tasks.Step (n, [.cmd left env]) (k, .done :: bg))
      (hr : Relation.ReflTransGen Tasks.Step (k, .cmd right env :: bg) c) :
      ListRun n left right env c

/-- A step of the tasks is a step of the list's run. -/
theorem ListRun.step {c d : Tasks} (h : ListRun n left right env c) (hstep : Tasks.Step c d) :
    ListRun n left right env d := by
  obtain ⟨m, ts'⟩ := d
  cases h with
  | start =>
    obtain ⟨a', bg, h, rfl⟩ | ⟨hno, -⟩ | ⟨ts₁, -, hno⟩ := hstep.cons_cases
    · cases h with
      | list => exact .left .refl
      | listFail => exact .left (.single (.task .fail [] []))
      | fail => exact .failed _ (.inl rfl)
    · cases hno
    · exact absurd hno Tasks.not_step_nil
  | failed ts h =>
    obtain rfl | rfl := h
    · obtain ⟨a', bg, hno, -⟩ | ⟨-, rfl, rfl⟩ | ⟨ts₁, -, hno⟩ := hstep.cons_cases
      · cases hno
      · exact .failed _ (.inr rfl)
      · exact absurd hno Tasks.not_step_nil
    · exact absurd hstep Tasks.not_step_nil
  | @left m' a bg h =>
    obtain ⟨a', bg', ha, rfl⟩ | ⟨hno, -⟩ | ⟨ts₁, rfl, hbg⟩ := hstep.cons_cases
    · cases ha with
      | seq ha => exact .left (h.tail (.task ha [] bg))
      | seqDone => exact .right h .refl
    · cases hno
    · exact .left (h.tail (hbg.cons a))
  | right hl hr => exact .right hl (hr.tail hstep)

/-- The programs of `left ; right` are those of a moment of the left side alone, or the left side is
done and they are those of the right side and of what was left to itself. -/
theorem ListRun.programs (h : ListRun n left right env (m, ts)) :
    ∃ ts', ts'.flatMap Task.programs = ts.flatMap Task.programs ∧
      (Relation.ReflTransGen Tasks.Step (n, [.cmd left env]) (m, ts') ∨
        ∃ k bg, Relation.ReflTransGen Tasks.Step (n, [.cmd left env]) (k, .done :: bg) ∧
          Relation.ReflTransGen Tasks.Step (k, .cmd right env :: bg) (m, ts')) := by
  cases h with
  | start => exact ⟨[.cmd left env], rfl, .inl .refl⟩
  | failed ts h =>
    refine ⟨[.cmd left env], ?_, .inl .refl⟩
    obtain rfl | rfl := h <;> rfl
  | @left _ a bg h => exact ⟨a :: bg, rfl, .inl h⟩
  | right hl hr => exact ⟨_, rfl, .inr ⟨_, _, hl, hr⟩⟩

/-! ## The ends of pipes -/

/-- The files of an environment. -/
def Env.files (env : Env) : List Desc := [env.stdin, env.stdout, env.stderr]

/-- The pipes of the environment are among the first `n`, and it has no two ends of one. -/
structure Env.OneEnd (n : ℕ) (env : Env) : Prop where
  lt : ∀ k, .pipeRead k ∈ env.files ∨ .pipeWrite k ∈ env.files → k < n
  not_both : ∀ k, ¬(.pipeRead k ∈ env.files ∧ .pipeWrite k ∈ env.files)

theorem Env.OneEnd.mono (h : env.OneEnd n) (hnm : n ≤ m) : env.OneEnd m :=
  ⟨fun k hk => Nat.lt_of_lt_of_le (h.lt k hk) hnm, h.not_both⟩

/-- A file is added that is no end of a pipe of the environment. -/
theorem Env.OneEnd.add {env' : Env} {d : Desc} (h : env.OneEnd n) (hnm : n ≤ m)
    (hfiles : ∀ d' ∈ env'.files, d' ∈ env.files ∨ d' = d)
    (hd : ∀ k, .pipeRead k = d ∨ .pipeWrite k = d → n ≤ k ∧ k < m) : env'.OneEnd m := by
  refine ⟨fun k hk => ?_, fun k ⟨hr, hw⟩ => ?_⟩
  · obtain hr | hw := hk
    · obtain hold | hnew := hfiles _ hr
      · exact Nat.lt_of_lt_of_le (h.lt k (.inl hold)) hnm
      · exact (hd k (.inl hnew)).2
    · obtain hold | hnew := hfiles _ hw
      · exact Nat.lt_of_lt_of_le (h.lt k (.inr hold)) hnm
      · exact (hd k (.inr hnew)).2
  · obtain hr | hr := hfiles _ hr <;> obtain hw | hw := hfiles _ hw
    · exact h.not_both k ⟨hr, hw⟩
    · exact Nat.not_le.mpr (h.lt k (.inl hr)) (hd k (.inr hw)).1
    · exact Nat.not_le.mpr (h.lt k (.inr hw)) (hd k (.inl hr)).1
    · exact absurd (hr.trans hw.symm) (by simp)

/-- A redirection adds no pipe end. -/
theorem Env.OneEnd.redirect (h : env.OneEnd n) (file : Word) (mode : Mode) :
    (env.redirect file mode).OneEnd n := by
  refine h.add (d := .file file mode) le_rfl (fun d hd => ?_) (by simp)
  cases mode <;> simp [Env.files, Env.redirect] at hd ⊢ <;> tauto

theorem Env.OneEnd.write (h : env.OneEnd n) : { env with stdout := .pipeWrite n }.OneEnd (n + 1) := by
  refine h.add (d := .pipeWrite n) n.le_succ (fun d hd => ?_) (by simp)
  simp only [Env.files, List.mem_cons] at hd ⊢
  tauto

theorem Env.OneEnd.read (h : env.OneEnd n) : { env with stdin := .pipeRead n }.OneEnd (n + 1) := by
  refine h.add (d := .pipeRead n) n.le_succ (fun d hd => ?_) (by simp)
  simp only [Env.files, List.mem_cons] at hd ⊢
  tauto

/-- The environments of a task. -/
def Task.envs : Task → List Env
  | done => []
  | program _ _ env => [env]
  | cmd _ env => [env]
  | seq left _ env => env :: left.envs
  | par left right => left.envs ++ right.envs

/-- A step makes no environment with two ends of a pipe. -/
theorem Task.Step.oneEnd {bg : List Task} {a' : Task} (h : Task.Step n a m a' bg)
    (ha : ∀ env ∈ a.envs, env.OneEnd n) :
    n ≤ m ∧ (∀ env ∈ a'.envs, env.OneEnd m) ∧ ∀ env ∈ bg.flatMap Task.envs, env.OneEnd m := by
  induction h with
  | exec | program | fail | parDone => simp_all [Task.envs]
  | redir | list | listFail | back | seqDone =>
    simp_all [Task.envs, Env.OneEnd.redirect]
  | pipe =>
    have henv := ha _ (List.mem_singleton_self _)
    refine ⟨Nat.le_succ _, ?_, by simp⟩
    simp only [Task.envs, List.mem_append, List.mem_singleton]
    rintro env' (rfl | rfl)
    · exact henv.write
    · exact henv.read
  | seq _ ih =>
    obtain ⟨hle, ha', hbg⟩ := ih fun env henv => ha env (.tail _ henv)
    refine ⟨hle, List.forall_mem_cons.mpr ⟨(ha _ (.head _)).mono hle, ha'⟩, hbg⟩
  | left _ ih =>
    obtain ⟨hle, ha', hbg⟩ := ih fun env henv => ha env (List.mem_append_left _ henv)
    exact ⟨hle, List.forall_mem_append.mpr ⟨ha', fun env henv =>
      (ha env (List.mem_append_right _ henv)).mono hle⟩, hbg⟩
  | right _ ih =>
    obtain ⟨hle, hb', hbg⟩ := ih fun env henv => ha env (List.mem_append_right _ henv)
    exact ⟨hle, List.forall_mem_append.mpr ⟨fun env henv =>
      (ha env (List.mem_append_left _ henv)).mono hle, hb'⟩, hbg⟩

/-- Every step leaves each environment at most one end of a pipe. -/
theorem Tasks.Step.oneEnd {c d : Tasks} (h : Tasks.Step c d)
    (hc : ∀ env ∈ c.2.flatMap Task.envs, env.OneEnd c.1) :
    ∀ env ∈ d.2.flatMap Task.envs, env.OneEnd d.1 := by
  cases h with
  | task h l₁ l₂ =>
    simp only [List.flatMap_append, List.flatMap_cons, List.forall_mem_append] at hc ⊢
    obtain ⟨h₁, ha, h₂⟩ := hc
    obtain ⟨hle, ha', hbg⟩ := h.oneEnd ha
    exact ⟨⟨fun env henv => (h₁ env henv).mono hle, ha', hbg⟩, fun env henv => (h₂ env henv).mono hle⟩
  | done l₁ l₂ =>
    simp only [List.flatMap_append, List.flatMap_cons, List.forall_mem_append] at hc ⊢
    exact ⟨hc.1, hc.2.2⟩

/-- A program that runs has an environment of its task. -/
theorem Task.mem_envs {path : List Chr} {argv : List Word} (h : (path, argv, env) ∈ a.programs) :
    env ∈ a.envs := by
  induction a with
  | done | cmd => cases h
  | program path argv env => simp_all [Task.programs, Task.envs]
  | seq left t env ih => exact .tail _ (ih h)
  | par left right ihl ihr => exact List.mem_append.mpr ((List.mem_append.mp h).imp ihl ihr)

/-- No program that runs has both ends of a pipe. -/
theorem not_both_ends {t : Cmd} (henv : env.OneEnd 0)
    (h : Relation.ReflTransGen Tasks.Step (0, [.cmd t env]) (m, ts)) {path : List Chr}
    {argv : List Word} {env' : Env} (hmem : (path, argv, env') ∈ ts.flatMap Task.programs) (k : ℕ) :
    ¬(.pipeRead k ∈ env'.files ∧ .pipeWrite k ∈ env'.files) := by
  have hall : ∀ env ∈ ts.flatMap Task.envs, env.OneEnd m := by
    generalize hc : (0, [Task.cmd t env]) = c at h
    generalize hd : (m, ts) = d at h
    have hstart : ∀ env ∈ c.2.flatMap Task.envs, env.OneEnd c.1 := by
      subst hc
      simpa [Task.envs] using henv
    suffices ∀ env ∈ d.2.flatMap Task.envs, env.OneEnd d.1 by
      subst hd
      exact this
    clear hd
    induction h with
    | refl => exact hstart
    | tail _ hstep ih => exact hstep.oneEnd ih
  obtain ⟨a, ha, hprog⟩ := List.mem_flatMap.mp hmem
  exact (hall env' (List.mem_flatMap.mpr ⟨a, ha, Task.mem_envs hprog⟩)).not_both k

end UnixV6.Sh
