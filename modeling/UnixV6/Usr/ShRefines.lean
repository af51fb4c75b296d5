import UnixV6.Lib.Run
import UnixV6.Usr.ShTrees

/-!
# The processes of the shell carry out the line (`usr/sh.c`)

The processes are a forest: a tree for the line, and one for each command that nothing waits for.
Whatever the order of their steps, the programs that run are those of some moment of the commands.
-/

namespace UnixV6.Sh

open Usr

variable {s s' : Sys} {pid x q : Pid} {a b : Task} {D E : Set Pid} {act : Act}

/-! ## Forests -/

/-- Nothing waits for the process: its parent is not among the processes, or is about to end. -/
def Root (s : Sys) (pid : Pid) : Prop :=
  s.ppid pid = none ∨
    ∃ x rest fds p, s.ppid pid = some x ∧ s.proc x = some ⟨.shell (.exit :: rest), fds, p⟩

/-- The processes in `D` carry out tasks that nothing waits for. -/
inductive Forest (s : Sys) : List Task → Set Pid → Prop
  | nil : Forest s [] ∅
  | cons {pid a D ts E} (h : Holds s pid a D) (hroot : Root s pid) (hf : Forest s ts E)
      (hdisj : Disjoint D E) : Forest s (a :: ts) (D ∪ E)

variable {ts : List Task}

theorem Forest.alive (h : Forest s ts D) : ∀ y ∈ D, (s.proc y).isSome := by
  induction h with
  | nil => exact fun y hy => hy.elim
  | cons h _ _ _ ih => exact fun y hy => hy.elim (h.alive y) (ih y)

/-- Nothing comes to wait for a process. -/
theorem Root.step (h : Root s pid) (halive : (s.proc pid).isSome) (hstep : s.step act = some s') :
    Root s' pid := by
  obtain hsame | ⟨x, pr, -, -, rfl, hppid⟩ := ppid_step hstep halive
  · obtain hnone | ⟨x, rest, fds, p, hppid, hx⟩ := h
    · exact .inl (hsame.trans hnone)
    · -- The parent can only end, and is not the parent then.
      have hactor : act.actor ≠ some x := by
        intro hactor
        obtain rfl := step_at_exit hx rfl hstep hactor
        simp [Sys.zombify, hppid] at hsame
      have htaken : act.taken ≠ some x := by
        intro htaken
        obtain ⟨_, _, hz⟩ := taken_zombie hstep htaken
        simp [hx] at hz
      exact .inr ⟨x, rest, fds, p, hsame.trans hppid, proc_step hx hstep hactor htaken⟩
  · exact .inl (by simp [Sys.zombify, hppid])

/-- No step forks or reaps the root. -/
theorem Root.not_taken (h : Root s pid) (hstep : s.step act = some s') (hx : act.actor = some x) :
    act.taken ≠ some pid := by
  intro htaken
  have hchild := taken_isChild hstep hx htaken
  obtain hnone | ⟨y, rest, fds, p, hppid, hy⟩ := h
  · simp [hchild.2] at hnone
  · obtain rfl : x = y := Option.some.inj (hchild.2.symm.trans hppid)
    cases stepped hy hstep hx with
    | wait hwaits => simp [Proc.waits, next] at hwaits
    | _ => cases htaken

/-- A forest that takes no part in the step is as it was. -/
theorem Forest.frame (h : Forest s ts D) (hstep : s.step act = some s')
    (hx : ∀ x, act.actor = some x → x ∉ D) (hq : ∀ q, act.taken = some q → q ∉ D) :
    Forest s' ts D := by
  induction h with
  | nil => exact .nil
  | cons h hroot hf hdisj ih =>
    refine .cons (h.frame (step_frame hstep (fun x hact hmem => hx x hact (.inl hmem))
      (fun q hact hmem => hq q hact (.inl hmem)) h.alive))
      (hroot.step (h.alive _ h.mem) hstep) (ih ?_ ?_) hdisj
    · exact fun x hact hmem => hx x hact (.inr hmem)
    · exact fun q hact hmem => hq q hact (.inr hmem)

/-- No process of a tree is taken by one that is not in it. -/
theorem Holds.taken_not_mem (h : Holds s pid a D) (hroot : Root s pid)
    (hstep : s.step act = some s') (hx : act.actor = some x) (hxD : x ∉ D) :
    ∀ q, act.taken = some q → q ∉ D := by
  intro q hq hqD
  have hchild := taken_isChild hstep hx hq
  obtain rfl | ⟨z, hz, hchild'⟩ := h.isChild_of_mem hqD
  · exact hroot.not_taken hstep hx hq
  · exact hxD (isChild_unique hchild hchild' ▸ hz)

/-- A step of a process outside the forest takes none of it. -/
theorem Forest.taken_not_mem (h : Forest s ts D) (hstep : s.step act = some s')
    (hx : act.actor = some x) (hxD : x ∉ D) : ∀ q, act.taken = some q → q ∉ D := by
  intro q hq
  induction h with
  | nil => exact Set.notMem_empty q
  | cons h hroot hf hdisj ih =>
    obtain ⟨hxD, hxE⟩ := not_or.mp hxD
    exact not_or.mpr ⟨h.taken_not_mem hroot hstep hx hxD q hq, ih hxE⟩

/-- What goes on without a tree is in the forest. -/
theorem Apart.forest {bg : List Task} (h : Apart s x bg D) (hf : Forest s ts E)
    (hdisj : Disjoint D E) : Forest s (bg ++ ts) (D ∪ E) := by
  cases h with
  | none => simpa using hf
  | one h hq hx => exact .cons h (.inr ⟨x, _, _, _, hq.2, hx⟩) hf hdisj

/-- The processes of a forest, one part of which has changed. -/
theorem covers_union {F : Set Pid} (hF : ∀ y ∈ F, (s.proc y).isSome ∧ (s'.proc y).isSome)
    (h : ∀ y, y ∈ D ↔ (y ∈ E ∨ s.proc y = none) ∧ s'.proc y ≠ none) (y : Pid) :
    y ∈ D ∨ y ∈ F ↔ ((y ∈ E ∨ y ∈ F) ∨ s.proc y = none) ∧ s'.proc y ≠ none := by
  rw [h]
  constructor
  · rintro (⟨hy | hy, hsome⟩ | hy)
    · exact ⟨.inl (.inl hy), hsome⟩
    · exact ⟨.inr hy, hsome⟩
    · exact ⟨.inl (.inr hy), Option.isSome_iff_ne_none.mp (hF y hy).2⟩
  · rintro ⟨(hy | hy) | hy, hsome⟩
    · exact .inl ⟨.inl hy, hsome⟩
    · exact .inr hy
    · exact .inl ⟨.inr hy, hsome⟩

/-- What has changed has nothing of the rest. -/
theorem disjoint_of_covers {F : Set Pid} (hF : ∀ y ∈ F, (s.proc y).isSome) (hEF : Disjoint E F)
    (h : ∀ y, y ∈ D → y ∈ E ∨ s.proc y = none) : Disjoint D F := by
  refine Set.disjoint_left.mpr fun y hy hyF => ?_
  obtain hyE | hno := h y hy
  · exact Set.disjoint_left.mp hEF hyE hyF
  · simpa [hno] using hF y hyF

/-- A step of a process is a step of one of the tasks, or none. By induction on the forest: the
process is in the first tree, or in the others. -/
theorem Forest.moves (h : Forest s ts D) (hs : s.Parented) (hstep : s.step act = some s')
    (hx : act.actor = some x) (hmem : x ∈ D) :
    ∃ ts' D', ((ts' = ts ∧ s'.pipes = s.pipes) ∨ Tasks.Step (s.pipes, ts) (s'.pipes, ts')) ∧
      Forest s' ts' D' ∧ ∀ y, y ∈ D' ↔ (y ∈ D ∨ s.proc y = none) ∧ s'.proc y ≠ none := by
  -- the actor is in the part it belongs to, so not in the others
  have hactor : ∀ {F : Set Pid}, x ∉ F → ∀ y, act.actor = some y → y ∉ F :=
    fun hxF y hy => Option.some.inj (hx.symm.trans hy) ▸ hxF
  -- induction on the forest: the step is in its first tree or behind
  induction h with
  | nil => exact hmem.elim
  | @cons pid a D ts E h hroot hf hdisj ih =>
    by_cases hxD : x ∈ D
    · obtain ⟨a', bg, D', F, ha, h', hbg, hDF, hcovers⟩ :=
        h.moves hs hstep hx hxD (hroot.not_taken hstep hx)
      -- the other trees are not touched
      have hxE := Set.disjoint_left.mp hdisj hxD
      have hE := hf.frame hstep (hactor hxE) (hf.taken_not_mem hstep hx hxE)
      have hsome : ∀ y ∈ E, (s.proc y).isSome ∧ (s'.proc y).isSome :=
        fun y hy => ⟨hf.alive y hy, hE.alive y hy⟩
      have hnew : ∀ y, y ∈ D' ∪ F → y ∈ D ∨ s.proc y = none := fun y hy => ((hcovers y).mp hy).1
      have hdisj' := disjoint_of_covers hf.alive hdisj hnew
      obtain ⟨hD'E, hFE⟩ := Set.disjoint_union_left.mp hdisj'
      refine ⟨a' :: (bg ++ ts), D' ∪ (F ∪ E), ?_, .cons h' ?_ (hbg.forest hE hFE) ?_, fun y => ?_⟩
      · obtain ⟨rfl, rfl, hpipes⟩ | ha := ha
        · exact .inl ⟨rfl, hpipes⟩
        · exact .inr (.task ha [] ts)
      · exact hroot.step (h.alive _ h.mem) hstep
      · exact Set.disjoint_union_right.mpr ⟨hDF, hD'E⟩
      · rw [← Set.union_assoc]
        exact covers_union hsome hcovers y
    -- the step is behind the first tree, which is not touched
    · have hxE := hmem.resolve_left hxD
      obtain ⟨ts', E', hts, hE', hcovers⟩ := ih hxE
      have hD := h.frame (step_frame hstep (hactor hxD) (h.taken_not_mem hroot hstep hx hxD) h.alive)
      have hsome : ∀ y ∈ D, (s.proc y).isSome ∧ (s'.proc y).isSome :=
        fun y hy => ⟨h.alive y hy, hD.alive y hy⟩
      have hnew : ∀ y, y ∈ E' → y ∈ E ∨ s.proc y = none := fun y hy => ((hcovers y).mp hy).1
      refine ⟨a :: ts', D ∪ E', ?_, .cons hD (hroot.step (h.alive _ h.mem) hstep) hE' ?_,
        fun y => ?_⟩
      · obtain ⟨rfl, hpipes⟩ | hts := hts
        · exact .inl ⟨rfl, hpipes⟩
        · exact .inr (hts.cons a)
      · exact (disjoint_of_covers h.alive hdisj.symm hnew).symm
      · rw [Set.union_comm D E', Set.union_comm D E]
        exact covers_union hsome hcovers y

/-- A process that has ended and is taken was a task that was done. -/
theorem Forest.reap (h : Forest s ts D) (hstep : s.step (.reap q) = some s') (hq : q ∈ D) :
    ∃ ts' D', Tasks.Step (s.pipes, ts) (s'.pipes, ts') ∧ Forest s' ts' D' ∧
      ∀ y, y ∈ D' ↔ y ∈ D ∧ y ≠ q := by
  obtain ⟨fds, p, hz, hppid, hs'⟩ := step_reap hstep
  have hpipes : s'.pipes = s.pipes := by rw [hs']; rfl
  have htaken : ∀ {F : Set Pid}, q ∉ F → ∀ r, (Act.reap q).taken = some r → r ∉ F :=
    fun hqF r hr => Option.some.inj hr ▸ hqF
  have hactor : ∀ {F : Set Pid} x, (Act.reap q).actor = some x → x ∉ F := fun x hx => nomatch hx
  induction h with
  | nil => exact hq.elim
  | @cons pid a D ts E h hroot hf hdisj ih =>
    by_cases hqD : q ∈ D
    · have hqE := Set.disjoint_left.mp hdisj hqD
      -- It has no parent among the processes, and so it is the root.
      obtain rfl : q = pid := by
        obtain heq | ⟨z, -, hchild⟩ := h.isChild_of_mem hqD
        · exact heq
        · simp [hchild.2] at hppid
      obtain ⟨rfl, rfl⟩ := h.of_zombie hz
      refine ⟨ts, E, hpipes ▸ .done [] ts, hf.frame hstep hactor (htaken hqE), fun y => ?_⟩
      constructor
      · exact fun hy => ⟨.inr hy, ne_of_mem_of_not_mem hy hqE⟩
      · exact fun ⟨hy, hne⟩ => hy.resolve_left hne
    · have hqE := hq.resolve_left hqD
      obtain ⟨ts', E', hts, hE', hcovers⟩ := ih hqE
      have hD := h.frame (step_frame hstep hactor (htaken hqD) h.alive)
      refine ⟨a :: ts', D ∪ E', hts.cons a, .cons hD (hroot.step (h.alive _ h.mem) hstep) hE' ?_,
        fun y => ?_⟩
      · exact hdisj.mono_right fun y hy => ((hcovers y).mp hy).1
      · rw [Set.mem_union, Set.mem_union, hcovers]
        constructor
        · rintro (hy | ⟨hy, hne⟩)
          · exact ⟨.inl hy, ne_of_mem_of_not_mem hy hqD⟩
          · exact ⟨.inr hy, hne⟩
        · rintro ⟨hy | hy, hne⟩
          · exact .inl hy
          · exact .inr ⟨hy, hne⟩

/-! ## The processes carry out the line -/

/-- The processes are those of a forest. -/
structure Related (s : Sys) (ts : List Task) : Prop where
  forest : Forest s ts {y | s.proc y ≠ none}
  parented : s.Parented

/-- Each step of the processes is matched by steps of the tasks. -/
theorem Related.step (h : Related s ts) (hstep : s.step act = some s') :
    ∃ ts', Relation.ReflTransGen Tasks.Step (s.pipes, ts) (s'.pipes, ts') ∧ Related s' ts' := by
  cases hact : act.actor with
  | none =>
    obtain ⟨q, rfl⟩ : ∃ q, act = .reap q := by
      cases act with
      | reap q => exact ⟨q, rfl⟩
      | _ => cases hact
    obtain ⟨fds, p, hz, -, hs'⟩ := step_reap hstep
    obtain ⟨ts', D', hts, hD', hcovers⟩ := h.forest.reap hstep (by simp [hz])
    have hset : D' = {y | s'.proc y ≠ none} := by
      ext y
      rw [hcovers, hs']
      by_cases hy : y = q <;> simp [hy]
    exact ⟨ts', .single hts, hset ▸ hD', h.parented.step hstep⟩
  | some x =>
    have hx : x ∈ {y | s.proc y ≠ none} := actor_alive hstep hact
    obtain ⟨ts', D', hts, hD', hcovers⟩ := h.forest.moves h.parented hstep hact hx
    have hset : D' = {y | s'.proc y ≠ none} := by
      ext y
      rw [hcovers]
      exact and_iff_right (em' (s.proc y = none))
    refine ⟨ts', ?_, hset ▸ hD', h.parented.step hstep⟩
    obtain ⟨rfl, hpipes⟩ | hts := hts
    · rw [hpipes]
    · exact .single hts

/-- The programs of a tree are those of its task, with the descriptors of their environments. -/
theorem Holds.programs (h : Holds s pid a D) (path : List Chr) (argv : List Word) (fds : Fds) :
    (∃ y ∈ D, ∃ p, s.proc y = some ⟨.program path argv, fds, p⟩) ↔
      ∃ env : Env, fds = env.fds ∧ (path, argv, env) ∈ a.programs := by
  -- The process at the root is no program, if there is a tree below it.
  have below : ∀ {pid code fds' p} {E : Set Pid},
      s.proc pid = some ⟨.shell code, fds', p⟩ →
      ((∃ y ∈ insert pid E, ∃ p, s.proc y = some ⟨.program path argv, fds, p⟩) ↔
        ∃ y ∈ E, ∃ p, s.proc y = some ⟨.program path argv, fds, p⟩) := by
    intro pid code fds' p E hproc
    simp [hproc]
  induction h with
  | cmd hproc | zombie hproc | exit hproc => simp [hproc, Task.programs]
  | seqNone hproc | pipe hproc | halfNone hproc | neither hproc => simp [hproc, Task.programs]
  | program hproc =>
    simp only [Set.mem_singleton_iff, exists_eq_left, hproc, Task.programs, List.mem_singleton,
      Option.some.injEq, Proc.mk.injEq, Code.program.injEq, Prod.mk.injEq]
    constructor
    · rintro ⟨p, ⟨rfl, rfl⟩, rfl, rfl⟩
      exact ⟨_, rfl, rfl, rfl, rfl⟩
    · rintro ⟨env, rfl, rfl, rfl, rfl⟩
      exact ⟨_, ⟨rfl, rfl⟩, rfl, rfl⟩
  | seq hproc hwf hq hchild hD ih => exact (below hproc).trans ih
  | half hproc hwf hq hchild hD ih =>
    refine (below hproc).trans (ih.trans ?_)
    simp [Task.programs]
  | both hproc hq hr hchild hD hE hDE ihq ihr =>
    rw [below hproc]
    simp only [Set.mem_union, or_and_right, exists_or, ihq, ihr, Task.programs, List.mem_append,
      and_or_left]
  | leftDone hproc hr hchild hE ih =>
    refine (below hproc).trans (ih.trans ?_)
    simp [Task.programs]
  | rightDone hproc hq hchild hD ih =>
    refine (below hproc).trans (ih.trans ?_)
    simp [Task.programs]

/-- The programs running are those of the tasks. -/
theorem Forest.programs (h : Forest s ts D) (path : List Chr) (argv : List Word) (fds : Fds) :
    (∃ y ∈ D, ∃ p, s.proc y = some ⟨.program path argv, fds, p⟩) ↔
      ∃ env : Env, fds = env.fds ∧ (path, argv, env) ∈ ts.flatMap Task.programs := by
  induction h with
  | nil => simp
  | cons h hroot hf hdisj ih =>
    simp only [Set.mem_union, or_and_right, exists_or, h.programs, ih, List.flatMap_cons,
      List.mem_append, and_or_left]

/-- The tree of the parser has redirections of the descriptors that it gives them. -/
theorem Derives.wellFormed {N : Nonterminal} {toks : List Token} {t : Cmd}
    (d : Derives N toks t) : t.WellFormed := by
  -- arguments move inwards past the redirections
  have push : ∀ (cmd : Cmd) w, cmd.WellFormed → (cmd.push w).WellFormed := by
    intro cmd w h
    induction cmd with
    | exec argv => trivial
    | redir cmd file mode fd ih => exact ⟨h.1, ih h.2⟩
    | _ => exact h
  -- the items of a command one after the other
  have items : ∀ (items : List Item) (cmd : Cmd), cmd.WellFormed →
      (items.foldl Item.addTo cmd).WellFormed := by
    intro items
    induction items with
    | nil => exact fun cmd h => h
    | cons i items ih =>
      intro cmd h
      apply ih
      cases i with
      | arg w => exact push cmd w h
      | redir mode file => exact ⟨rfl, h⟩
  -- backgrounding any number of times
  have backs : ∀ (k : ℕ) (cmd : Cmd), cmd.WellFormed → (Cmd.back^[k] cmd).WellFormed := by
    intro k
    induction k with
    | zero => exact fun cmd h => h
    | succ k ih => exact fun cmd h => ih (.back cmd) h
  -- by the derivation
  induction d with
  | simple is hargs => exact items is (.exec []) trivial
  | block d is hredirs ih => exact items is _ ih
  | single d ih => exact ih
  | pipe l r ihl ihr => exact ⟨ihl, ihr⟩
  | backs d k ih => exact backs k _ ih
  | list l k r ihl ihr => exact ⟨backs k _ ihl, ihr⟩

/-- A run of the processes of a line is a run of its command. -/
theorem exists_related {line : List Chr} {t : Cmd} {env : Env} (hparse : parsecmd line = .ok t)
    (h : Reachable Sys.step (fun _ _ => True) (Sys.init x t env.fds) s) :
    ∃ ts, Relation.ReflTransGen Tasks.Step (0, [.cmd t env]) (s.pipes, ts) ∧ Related s ts := by
  have d := ((parsecmd_iff line).1 t).mp hparse
  induction h with
  | refl =>
    refine ⟨[.cmd t env], .refl, ?_, fun y z hyz => by simp [Sys.init, Sys.IsChild] at hyz⟩
    have hset : {y | (Sys.init x t env.fds).proc y ≠ none} = {x} ∪ ∅ := by
      ext y
      by_cases hy : y = x <;> simp [Sys.init, hy]
    have hproc : (Sys.init x t env.fds).proc x = some ⟨.shell [.runcmd t], env.fds, (0, 0)⟩ := by
      simp [Sys.init]
    rw [hset]
    refine .cons (.cmd hproc ⟨rfl, d.wellFormed⟩ fun y => ?_) (.inl rfl) .nil
      (Set.disjoint_empty _)
    simp [Sys.init, Sys.IsChild]
  | tail _ _ hstep ih =>
    obtain ⟨ts, hts, hrel⟩ := ih
    obtain ⟨ts', hts', hrel'⟩ := hrel.step hstep
    exact ⟨ts', hts.trans hts', hrel'⟩

/-- The programs that run, with their descriptors, are those of the tasks, with the files of their
environments. -/
def Sys.Runs (s : Sys) (ts : List Task) : Prop :=
  ∀ path argv fds, (∃ y p, s.proc y = some ⟨.program path argv, fds, p⟩) ↔
    ∃ env : Env, fds = env.fds ∧ (path, argv, env) ∈ ts.flatMap Task.programs

theorem Related.runs (h : Related s ts) : s.Runs ts := by
  intro path argv fds
  rw [← h.forest.programs]
  constructor
  · rintro ⟨y, p, hy⟩
    exact ⟨y, by simp [hy], p, hy⟩
  · rintro ⟨y, -, p, hy⟩
    exact ⟨y, p, hy⟩

/-- A program has the three standard descriptors open and no others, and never both ends of a
pipe. -/
theorem runcmd_fds (line : List Chr) (t : Cmd) (env : Env) (x : Pid) (s : Sys)
    (hparse : parsecmd line = .ok t) (henv : env.OneEnd 0)
    (h : Reachable Sys.step (fun _ _ => True) (Sys.init x t env.fds) s) (y : Pid) (path : List Chr)
    (argv : List Word) (fds : Fds) (p : ℕ × ℕ)
    (hy : s.proc y = some ⟨.program path argv, fds, p⟩) :
    (∀ fd, (fds fd).isSome ↔ fd < 3) ∧
      ∀ k fd fd', ¬(fds fd = some (.pipeRead k) ∧ fds fd' = some (.pipeWrite k)) := by
  obtain ⟨ts, hts, hrel⟩ := exists_related hparse h
  obtain ⟨env', rfl, hmem⟩ := (hrel.runs path argv fds).mp ⟨y, p, hy⟩
  have hfiles : ∀ {fd d}, env'.fds fd = some d → d ∈ env'.files := by
    intro fd d hd
    match fd with
    | 0 => exact Option.some.inj hd ▸ .head _
    | 1 => exact Option.some.inj hd ▸ .tail _ (.head _)
    | 2 => exact Option.some.inj hd ▸ .tail _ (.tail _ (.head _))
    | _ + 3 => cases hd
  refine ⟨fun fd => ?_, fun k fd fd' ⟨hr, hw⟩ => ?_⟩
  · match fd with
    | 0 => simp [Env.fds]
    | 1 => simp [Env.fds]
    | 2 => simp [Env.fds]
    | _ + 3 => simp [Env.fds]
  · exact not_both_ends henv hts hmem k ⟨hfiles hr, hfiles hw⟩

/-- `a|b`: the left program has the pipe for its output. -/
theorem runcmd_fds_pipe :
    let t : Cmd := .pipe (.exec [⟨[ascii 'a', ascii '|', ascii 'b'], [ascii '|', ascii 'b']⟩])
      (.exec [⟨[ascii 'b'], []⟩])
    let env : Env := ⟨.inherited 0, .inherited 1, .inherited 2⟩
    ∃ s pr, runSteps Sys.step [.own 0, .fork 0 1, .own 1, .own 1, .own 1, .own 1, .own 1]
        (Sys.init 0 t env.fds) = some s ∧ s.proc 1 = some pr ∧
      (∀ fd, (pr.fds fd).isSome ↔ fd < 3) ∧
      ∀ k fd fd', ¬(pr.fds fd = some (.pipeRead k) ∧ pr.fds fd' = some (.pipeWrite k)) :=
  ⟨_, _, rfl, rfl, runcmd_fds [ascii 'a', ascii '|', ascii 'b', 0]
    (.pipe (.exec [⟨[ascii 'a', ascii '|', ascii 'b'], [ascii '|', ascii 'b']⟩])
      (.exec [⟨[ascii 'b'], []⟩])) ⟨.inherited 0, .inherited 1, .inherited 2⟩ 0 _ (by decide)
    ⟨by simp [Env.files], by simp [Env.files]⟩
    (.of_runSteps .refl (show runSteps Sys.step [.own 0, .fork 0 1, .own 1, .own 1, .own 1, .own 1,
      .own 1] _ = _ from rfl)) 1 _ _ _ _ rfl⟩

end UnixV6.Sh
