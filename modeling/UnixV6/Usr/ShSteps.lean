import UnixV6.Usr.ShProcess

/-!
# Steps of the processes of the shell (`usr/sh.c`)

What a step of a process does, and what it leaves alone: a process outside a set of processes
changes none of them, if it takes no child from among them.
-/

namespace UnixV6.Sh

open Usr

variable {s s' : Sys} {pid x q : Pid} {D E : Set Pid} {act : Act}

/-! ## Steps of a process -/

/-- The process that takes a step. -/
def Act.actor : Act → Option Pid
  | own x | fail x | fork x _ | wait x _ | noChild x | exit x => some x
  | reap _ => none

/-- The child that a `wait` takes. -/
def Act.taken : Act → Option Pid
  | wait _ q | reap q => some q
  | _ => none

section Steps

variable {pr pr' : Proc} {n : ℕ}

/-- A process goes on by itself. -/
theorem step_own : s.step (.own x) = some s' ↔
    ∃ pr n pr', s.proc x = some pr ∧ pr.own s.pipes = some (n, pr') ∧
      s' = { s.set x (some pr') with pipes := n } := by
  simp only [Sys.step, Option.bind_eq_bind, Option.bind_eq_some_iff, Option.pure_def,
    Option.some.injEq, Prod.exists]
  constructor
  · rintro ⟨pr, hpr, n, pr', hown, rfl⟩
    exact ⟨pr, n, pr', hpr, hown, rfl⟩
  · rintro ⟨pr, n, pr', hpr, hown, rfl⟩
    exact ⟨pr, hpr, n, pr', hown, rfl⟩

/-- A system call of a process fails. -/
theorem step_fail : s.step (.fail x) = some s' ↔
    ∃ pr pr', s.proc x = some pr ∧ pr.fail = some pr' ∧ s' = s.set x (some pr') := by
  simp only [Sys.step, Option.bind_eq_bind, Option.bind_eq_some_iff, Option.pure_def,
    Option.some.injEq]
  constructor
  · rintro ⟨pr, hpr, pr', hfail, rfl⟩
    exact ⟨pr, pr', hpr, hfail, rfl⟩
  · rintro ⟨pr, pr', hpr, hfail, rfl⟩
    exact ⟨pr, hpr, pr', hfail, rfl⟩

/-- A process forks a child into a free slot. -/
theorem step_fork : s.step (.fork x q) = some s' ↔
    ∃ pr child rest, s.proc x = some pr ∧ pr.forks = some (child, rest) ∧ s.proc q = none ∧
      s' = { (s.set x (some { pr with code := .shell rest })).set q
        (some { pr with code := .shell child }) with ppid := Function.update s.ppid q (some x) } := by
  simp only [Sys.step, Option.bind_eq_bind, Option.bind_eq_some_iff, Option.pure_def,
    Prod.exists]
  constructor
  · rintro ⟨pr, hpr, child, rest, hforks, h⟩
    split_ifs at h with hq
    exact ⟨pr, child, rest, hpr, hforks, Option.isNone_iff_eq_none.mp hq, (Option.some.inj h).symm⟩
  · rintro ⟨pr, child, rest, hpr, hforks, hq, rfl⟩
    exact ⟨pr, hpr, child, rest, hforks, by rw [if_pos (Option.isNone_iff_eq_none.mpr hq)]; rfl⟩

/-- A process reaps a child. -/
theorem step_wait : s.step (.wait x q) = some s' →
    ∃ pr rest fds p, s.proc x = some pr ∧ pr.waits = some rest ∧
      s.proc q = some ⟨.zombie, fds, p⟩ ∧ s.ppid q = some x ∧
      s' = (s.set q none).set x (some { pr with code := .shell rest }) := by
  simp only [Sys.step, Option.bind_eq_bind, Option.bind_eq_some_iff, Option.pure_def]
  rintro ⟨pr, hpr, rest, hwaits, ⟨code, fds, p⟩, hz, h⟩
  cases code with
  | zombie =>
    dsimp only at h
    split_ifs at h with hppid
    exact ⟨pr, rest, fds, p, hpr, hwaits, hz, hppid, (Option.some.inj h).symm⟩
  | shell | program => cases h

/-- A process that waits has no child left. -/
theorem step_noChild : s.step (.noChild x) = some s' →
    ∃ pr rest, s.proc x = some pr ∧ pr.waits = some rest ∧ (∀ q, ¬s.IsChild q x) ∧
      s' = s.set x (some { pr with code := .shell rest }) := by
  simp only [Sys.step, Option.bind_eq_bind, Option.bind_eq_some_iff, Option.pure_def]
  rintro ⟨pr, hpr, rest, hwaits, h⟩
  split_ifs at h with hchild
  exact ⟨pr, rest, hpr, hwaits, hchild, (Option.some.inj h).symm⟩

/-- A process ends. -/
theorem step_exit : s.step (.exit x) = some s' →
    ∃ pr, s.proc x = some pr ∧ pr.ends ∧ s' = s.zombify x pr.p := by
  simp only [Sys.step, Option.bind_eq_bind, Option.bind_eq_some_iff, Option.pure_def]
  rintro ⟨pr, hpr, h⟩
  split_ifs at h with hends
  exact ⟨pr, hpr, hends, (Option.some.inj h).symm⟩

/-- An orphan is reaped. -/
theorem step_reap : s.step (.reap q) = some s' →
    ∃ fds p, s.proc q = some ⟨.zombie, fds, p⟩ ∧ s.ppid q = none ∧ s' = s.set q none := by
  simp only [Sys.step, Option.bind_eq_bind, Option.bind_eq_some_iff, Option.pure_def]
  rintro ⟨⟨code, fds, p⟩, hz, h⟩
  cases code with
  | zombie =>
    dsimp only at h
    split_ifs at h with hppid
    exact ⟨fds, p, hz, hppid, (Option.some.inj h).symm⟩
  | shell | program => cases h

end Steps

/-- What a process does in a step. -/
inductive Stepped (s : Sys) (x : Pid) (pr : Proc) : Act → Sys → Prop
  | own {n : ℕ} {pr' : Proc} (hown : pr.own s.pipes = some (n, pr')) :
      Stepped s x pr (.own x) { s.set x (some pr') with pipes := n }
  | fail {pr' : Proc} (hfail : pr.fail = some pr') : Stepped s x pr (.fail x) (s.set x (some pr'))
  | fork {q : Pid} {child rest : List Stmt} (hforks : pr.forks = some (child, rest)) (hfree : s.proc q = none) :
      Stepped s x pr (.fork x q)
        { (s.set x (some { pr with code := .shell rest })).set q
          (some { pr with code := .shell child }) with ppid := Function.update s.ppid q (some x) }
  | wait {q : Pid} {rest : List Stmt} {fds : Fds} {p : ℕ × ℕ} (hwaits : pr.waits = some rest) (hz : s.proc q = some ⟨.zombie, fds, p⟩)
      (hppid : s.ppid q = some x) :
      Stepped s x pr (.wait x q) ((s.set q none).set x (some { pr with code := .shell rest }))
  | noChild {rest : List Stmt} (hwaits : pr.waits = some rest) (hchild : ∀ q, ¬s.IsChild q x) :
      Stepped s x pr (.noChild x) (s.set x (some { pr with code := .shell rest }))
  | exit (hends : pr.ends) : Stepped s x pr (.exit x) (s.zombify x pr.p)

/-- A step of a process is one of these. -/
theorem stepped {pr : Proc} (hpr : s.proc x = some pr) (h : s.step act = some s') (hx : act.actor = some x) :
    Stepped s x pr act s' := by
  -- the process in the step is the one in hand
  have hsame : ∀ pr', s.proc x = some pr' → pr' = pr :=
    fun pr' h' => (Option.some.inj (hpr.symm.trans h')).symm
  -- each action is the matching case
  cases act with
  | own y =>
    obtain rfl : y = x := Option.some.inj hx
    obtain ⟨pr, n, pr', hpr', hown, rfl⟩ := step_own.mp h
    exact .own (hsame _ hpr' ▸ hown)
  | fail y =>
    obtain rfl : y = x := Option.some.inj hx
    obtain ⟨pr, pr', hpr', hfail, rfl⟩ := step_fail.mp h
    exact .fail (hsame _ hpr' ▸ hfail)
  | fork y q =>
    obtain rfl : y = x := Option.some.inj hx
    obtain ⟨pr, child, rest, hpr', hforks, hfree, rfl⟩ := step_fork.mp h
    obtain rfl := hsame _ hpr'
    exact .fork hforks hfree
  | wait y q =>
    obtain rfl : y = x := Option.some.inj hx
    obtain ⟨pr, rest, fds, p, hpr', hwaits, hz, hppid, rfl⟩ := step_wait h
    obtain rfl := hsame _ hpr'
    exact .wait hwaits hz hppid
  | noChild y =>
    obtain rfl : y = x := Option.some.inj hx
    obtain ⟨pr, rest, hpr', hwaits, hchild, rfl⟩ := step_noChild h
    obtain rfl := hsame _ hpr'
    exact .noChild hwaits hchild
  | exit y =>
    obtain rfl : y = x := Option.some.inj hx
    obtain ⟨pr, hpr', hends, rfl⟩ := step_exit h
    obtain rfl := hsame _ hpr'
    exact .exit hends
  -- reaping has no actor among the processes
  | reap q => cases hx

/-- The processes after one was set. -/
@[simp]
theorem Sys.set_proc (s : Sys) (x : Pid) (pr : Option Proc) (y : Pid) :
    (s.set x pr).proc y = if y = x then pr else s.proc y := Function.update_apply _ _ _ _

theorem Sys.set_self (s : Sys) (x : Pid) (pr : Option Proc) : (s.set x pr).proc x = pr :=
  (s.set_proc x pr x).trans (if_pos rfl)

/-- Setting a process changes no parent. -/
@[simp]
theorem Sys.set_ppid (s : Sys) (x : Pid) (pr : Option Proc) : (s.set x pr).ppid = s.ppid := rfl

/-- Setting a process opens no pipe. -/
@[simp]
theorem Sys.set_pipes (s : Sys) (x : Pid) (pr : Option Proc) : (s.set x pr).pipes = s.pipes := rfl

/-- A process that goes on is the child of the same process. -/
theorem isChild_set {pr : Proc} (hpr : s.proc x = some pr) (pr' : Proc) (n : ℕ) (y z : Pid) :
    ({ s.set x (some pr') with pipes := n } : Sys).IsChild y z ↔ s.IsChild y z := by
  by_cases hy : y = x <;> simp [Sys.IsChild, hy, hpr]

/-- The processes in `D` and their children are the same in both states. -/
structure Frame (s s' : Sys) (D : Set Pid) : Prop where
  proc : ∀ y ∈ D, s'.proc y = s.proc y
  isChild : ∀ y, ∀ z ∈ D, s'.IsChild y z ↔ s.IsChild y z

theorem Frame.mono (h : Frame s s' D) (hsub : E ⊆ D) : Frame s s' E :=
  ⟨fun y hy => h.proc y (hsub hy), fun y z hz => h.isChild y z (hsub hz)⟩

/-- A step of a process changes no tree that it is not in, and from which it takes no child. -/
theorem step_frame (h : s.step act = some s') (hx : ∀ x, act.actor = some x → x ∉ D)
    (hq : ∀ q, act.taken = some q → q ∉ D) (halive : ∀ y ∈ D, (s.proc y).isSome) :
    Frame s s' D := by
  -- A process outside that only goes on is still the child of its parent.
  have outside : ∀ {x pr pr' n}, x ∉ D → s.proc x = some pr →
      Frame s { s.set x (some pr') with pipes := n } D := by
    intro x pr pr' n hx hpr
    exact ⟨fun y hy => by simp [ne_of_mem_of_not_mem hy hx], fun y z _ => isChild_set hpr _ _ y z⟩
  cases act with
  | own x =>
    obtain ⟨pr, n, pr', hpr, -, rfl⟩ := step_own.mp h
    exact outside (hx x rfl) hpr
  | fail x =>
    obtain ⟨pr, pr', hpr, -, rfl⟩ := step_fail.mp h
    exact outside (hx x rfl) hpr
  | noChild x =>
    obtain ⟨pr, rest, hpr, -, -, rfl⟩ := step_noChild h
    exact outside (hx x rfl) hpr
  | fork x q =>
    obtain ⟨pr, child, rest, hpr, -, hfree, rfl⟩ := step_fork.mp h
    have hqD : q ∉ D := fun hmem => by simpa [hfree] using halive q hmem
    have hxD := hx x rfl
    refine ⟨fun y hy => ?_, fun y z hz => ?_⟩
    · simp [ne_of_mem_of_not_mem hy hxD, ne_of_mem_of_not_mem hy hqD]
    · by_cases hy : y = q
      · simp [Sys.IsChild, hy, hfree, (ne_of_mem_of_not_mem hz hxD).symm]
      · obtain rfl | hyx := eq_or_ne y x
        · simp [Sys.IsChild, hy, hpr]
        · simp [Sys.IsChild, hy, hyx]
  | wait x q =>
    obtain ⟨pr, rest, fds, p, hpr, -, hz, hppid, rfl⟩ := step_wait h
    have hxD := hx x rfl
    have hqD := hq q rfl
    refine ⟨fun y hy => ?_, fun y z hz => ?_⟩
    · simp [ne_of_mem_of_not_mem hy hxD, ne_of_mem_of_not_mem hy hqD]
    · by_cases hy : y = q
      · simp [Sys.IsChild, hy, hppid, (ne_of_mem_of_not_mem hz hxD).symm]
      · by_cases hyx : y = x <;> simp [Sys.IsChild, hy, hyx, hpr]
  | exit x =>
    obtain ⟨pr, hpr, -, rfl⟩ := step_exit h
    have hxD := hx x rfl
    refine ⟨fun y hy => ?_, fun y z hz => ?_⟩
    · simp [Sys.zombify, ne_of_mem_of_not_mem hy hxD]
    · have hzx := ne_of_mem_of_not_mem hz hxD
      by_cases hy : s.ppid y = some x
      · simp [Sys.IsChild, Sys.zombify, hy, Ne.symm hzx]
      · obtain rfl | hyx := eq_or_ne y x
        · simp [Sys.IsChild, Sys.zombify, hy, hpr]
        · simp [Sys.IsChild, Sys.zombify, hy, hyx]
  | reap q =>
    obtain ⟨fds, p, hz, hppid, rfl⟩ := step_reap h
    have hqD := hq q rfl
    refine ⟨fun y hy => ?_, fun y z hz => ?_⟩
    · simp [ne_of_mem_of_not_mem hy hqD]
    · by_cases hy : y = q <;> simp [Sys.IsChild, hy, hppid]

/-- A parent has not ended. -/
def Sys.Parented (s : Sys) : Prop :=
  ∀ y z, s.IsChild y z → ∃ pr, s.proc z = some pr ∧ pr.code ≠ .zombie

/-- The processes after a `fork`. -/
structure Forked (s s' : Sys) (x q : Pid) (parent child : Proc) : Prop where
  ne : q ≠ x
  parent : s'.proc x = some parent
  child : s'.proc q = some child
  isChild : ∀ y z, s'.IsChild y z ↔ y = q ∧ z = x ∨ s.IsChild y z
  eq_none : ∀ y, s'.proc y = none ↔ y ≠ q ∧ s.proc y = none
  pipes : s'.pipes = s.pipes
  childless : ∀ y, ¬s'.IsChild y q
  free : s.proc q = none

/-- After a fork the child has its parent, and the others stay. -/
theorem forked {pr : Proc} (child rest : List Stmt) (hs : s.Parented) (hpr : s.proc x = some pr)
    (hfree : s.proc q = none)
    (hs' : s' = { (s.set x (some { pr with code := .shell rest })).set q
      (some { pr with code := .shell child }) with ppid := Function.update s.ppid q (some x) }) :
    Forked s s' x q { pr with code := .shell rest } { pr with code := .shell child } := by
  have hne : q ≠ x := by
    rintro rfl
    simp [hfree] at hpr
  have hchild : ∀ y z, s'.IsChild y z ↔ y = q ∧ z = x ∨ s.IsChild y z := by
    intro y z
    obtain rfl | hq := eq_or_ne y q
    · simp [hs', Sys.IsChild, hfree, eq_comm]
    · obtain rfl | hx := eq_or_ne y x
      · simp [hs', Sys.IsChild, hq, hpr]
      · simp [hs', Sys.IsChild, hq, hx]
  refine ⟨hne, by simp [hs', hne.symm], by simp [hs'], hchild, fun y => ?_, by rw [hs']; rfl, ?_, hfree⟩
  · by_cases hq : y = q <;> by_cases hx : y = x <;> simp_all
  · intro y hy
    obtain ⟨-, heq⟩ | hold := (hchild y q).mp hy
    · exact hne heq
    · obtain ⟨pr', hpr', -⟩ := hs y q hold
      simp [hfree] at hpr'

/-- The new process is added to those of a tree. -/
theorem Forked.covers {parent child : Proc} (h : Forked s s' x q parent child)
    (hD : ∀ y ∈ D, (s.proc y).isSome) (y : Pid) :
    y ∈ D ∨ y = q ↔ (y ∈ D ∨ s.proc y = none) ∧ s'.proc y ≠ none := by
  rw [Ne, h.eq_none]
  constructor
  · rintro (hy | rfl)
    · exact ⟨.inl hy, fun hno => Option.isSome_iff_ne_none.mp (hD y hy) hno.2⟩
    · exact ⟨.inr h.free, fun hno => hno.1 rfl⟩
  · rintro ⟨hy | hy, hno⟩
    · exact .inl hy
    · exact .inr (by_contra fun hne => hno ⟨hne, hy⟩)

/-- Who takes a process that has ended is its parent. -/
theorem taken_isChild (h : s.step act = some s') (hx : act.actor = some x)
    (hq : act.taken = some q) : s.IsChild q x := by
  cases act with
  | wait y r =>
    obtain rfl : y = x := Option.some.inj hx
    obtain rfl : r = q := Option.some.inj hq
    obtain ⟨-, -, fds, p, -, -, hz, hppid, -⟩ := step_wait h
    exact ⟨by simp [hz], hppid⟩
  | reap r => cases hx
  | _ => cases hq

/-- A child has one parent. -/
theorem isChild_unique {y z w : Pid} (hz : s.IsChild y z) (hw : s.IsChild y w) : z = w :=
  Option.some.inj (hz.2.symm.trans hw.2)

/-- A process has the same parent, if that has not ended. -/
theorem ppid_step (hstep : s.step act = some s') (halive : (s.proc pid).isSome) :
    s'.ppid pid = s.ppid pid ∨
      ∃ x pr, s.proc x = some pr ∧ act = .exit x ∧ s' = s.zombify x pr.p ∧ s.ppid pid = some x := by
  -- only an exit changes parents, of the exiting process's children
  cases act with
  | own x =>
    obtain ⟨pr, n, pr', -, -, rfl⟩ := step_own.mp hstep
    exact .inl rfl
  | fail x =>
    obtain ⟨pr, pr', -, -, rfl⟩ := step_fail.mp hstep
    exact .inl rfl
  | fork x q =>
    obtain ⟨pr, child, rest, -, -, hfree, rfl⟩ := step_fork.mp hstep
    -- the slot taken was free, `pid` was alive
    have hne : pid ≠ q := by
      rintro rfl
      simp [hfree] at halive
    exact .inl (Function.update_of_ne hne _ _)
  | wait x q =>
    obtain ⟨pr, rest, fds, p, -, -, -, -, rfl⟩ := step_wait hstep
    exact .inl rfl
  | noChild x =>
    obtain ⟨pr, rest, -, -, -, rfl⟩ := step_noChild hstep
    exact .inl rfl
  | exit x =>
    obtain ⟨pr, hpr, -, rfl⟩ := step_exit hstep
    by_cases hppid : s.ppid pid = some x
    · exact .inr ⟨x, pr, hpr, rfl, rfl, hppid⟩
    · exact .inl (if_neg hppid)
  | reap q =>
    obtain ⟨fds, p, -, -, rfl⟩ := step_reap hstep
    exact .inl rfl

/-- The process that is taken has ended. -/
theorem taken_zombie (hstep : s.step act = some s') (hq : act.taken = some q) :
    ∃ fds p, s.proc q = some ⟨.zombie, fds, p⟩ := by
  cases act with
  | wait x r =>
    obtain rfl : r = q := Option.some.inj hq
    obtain ⟨-, -, fds, p, -, -, hz, -, -⟩ := step_wait hstep
    exact ⟨fds, p, hz⟩
  | reap r =>
    obtain rfl : r = q := Option.some.inj hq
    obtain ⟨fds, p, hz, -, -⟩ := step_reap hstep
    exact ⟨fds, p, hz⟩
  | _ => cases hq

/-- A process that is not taken and takes no step itself is as it was. -/
theorem proc_step {pr : Proc} (hpr : s.proc pid = some pr) (hstep : s.step act = some s')
    (hx : act.actor ≠ some pid) (hq : act.taken ≠ some pid) : s'.proc pid = some pr := by
  refine ((step_frame (D := {pid}) hstep ?_ ?_ (by simp [hpr])).proc pid rfl).trans hpr
  · rintro y hy rfl
    exact hx hy
  · rintro y hy rfl
    exact hq hy

/-- A statement of the process itself does not end it. -/
theorem own_code {pr pr' : Proc} {n n' : ℕ} (h : pr.own n = some (n', pr')) :
    pr'.code ≠ .zombie := by
  rw [Proc.own] at h
  split at h
  · split at h
    · obtain ⟨-, rfl⟩ := Prod.mk.inj (Option.some.inj h)
      simp
    · obtain ⟨-, rfl⟩ := Prod.mk.inj (Option.some.inj h)
      simp
    · obtain ⟨i, -, heq⟩ := Option.map_eq_some_iff.mp h
      obtain ⟨-, rfl⟩ := Prod.mk.inj heq
      simp
    · obtain ⟨r, -, h⟩ := Option.bind_eq_some_iff.mp h
      obtain ⟨w, -, h⟩ := Option.bind_eq_some_iff.mp h
      obtain ⟨-, rfl⟩ := Prod.mk.inj (Option.some.inj h)
      simp
    · obtain ⟨-, rfl⟩ := Prod.mk.inj (Option.some.inj h)
      simp
    · cases h
  · cases h

/-- Neither does a call that fails. -/
theorem fail_code {pr pr' : Proc} (h : pr.fail = some pr') : pr'.code ≠ .zombie := by
  rw [Proc.fail] at h
  split at h
  · split at h
    · obtain rfl := Option.some.inj h
      simp
    · obtain rfl := Option.some.inj h
      simp
    · obtain rfl := Option.some.inj h
      simp
    · obtain rfl := Option.some.inj h
      simp
    · cases h
  · cases h

/-- The parent of a new process has called `fork`, and goes on. -/
theorem new_parent {y z : Pid} (hs : s.Parented) (hstep : s.step act = some s')
    (hyz : s'.IsChild y z) (hold : ¬s.IsChild y z) :
    ∃ pr, s'.proc z = some pr ∧ pr.code ≠ .zombie := by
  -- only `fork` makes a child, and its maker is alive
  cases act with
  | own x =>
    obtain ⟨pr, n, pr', hpr, -, rfl⟩ := step_own.mp hstep
    exact absurd ((isChild_set hpr _ _ y z).mp hyz) hold
  | fail x =>
    obtain ⟨pr, pr', hpr, -, rfl⟩ := step_fail.mp hstep
    exact absurd ((isChild_set hpr _ s.pipes y z).mp hyz) hold
  | fork x q =>
    -- the one new child is the forked one
    obtain ⟨pr, child, rest, hpr, -, hfree, rfl⟩ := step_fork.mp hstep
    have hf := forked child rest hs hpr hfree rfl
    obtain ⟨-, rfl⟩ := ((hf.isChild y z).mp hyz).resolve_right hold
    exact ⟨_, hf.parent, by simp⟩
  -- reaping takes a child away
  | wait x q =>
    obtain ⟨pr, rest, fds, p, hpr, -, -, -, rfl⟩ := step_wait hstep
    refine absurd ⟨?_, hyz.2⟩ hold
    have hsome := hyz.1
    by_cases hx : y = x <;> by_cases hq : y = q <;> simp_all
  | noChild x =>
    obtain ⟨pr, rest, hpr, -, -, rfl⟩ := step_noChild hstep
    exact absurd ((isChild_set hpr _ s.pipes y z).mp hyz) hold
  | exit x =>
    obtain ⟨pr, hpr, -, rfl⟩ := step_exit hstep
    -- an exit takes the children away, it gives none
    have hppid : s.ppid y = some z := by
      have heq := hyz.2
      simp only [Sys.zombify] at heq
      exact (Option.ite_none_left_eq_some.mp heq).2
    refine absurd ⟨?_, hppid⟩ hold
    have hsome := hyz.1
    by_cases hx : y = x <;> simp_all [Sys.zombify]
  | reap q =>
    obtain ⟨fds, p, -, -, rfl⟩ := step_reap hstep
    refine absurd ⟨?_, hyz.2⟩ hold
    have hsome := hyz.1
    by_cases hq : y = q <;> simp_all

/-- The parent of a process is there until it ends, and then it is the parent no more. -/
theorem Sys.Parented.step (hs : s.Parented) (hstep : s.step act = some s') : s'.Parented := by
  intro y z hyz
  -- The child of a `fork` has a parent that goes on.
  by_cases hold : s.IsChild y z
  · obtain ⟨pr, hpr, hcode⟩ := hs y z hold
    by_cases hz : act.actor = some z
    · cases stepped hpr hstep hz with
      | own hown => exact ⟨_, s.set_self z _, own_code hown⟩
      | fail hfail => exact ⟨_, s.set_self z _, fail_code hfail⟩
      | @fork q child rest hforks hfree =>
        have hf := forked child rest hs hpr hfree rfl
        exact ⟨_, hf.parent, by simp⟩
      | wait => exact ⟨_, Sys.set_self _ z _, by simp⟩
      | noChild => exact ⟨_, s.set_self z _, by simp⟩
      | exit =>
        have := hyz.2
        simp [Sys.zombify, hold.2] at this
    · refine ⟨pr, proc_step hpr hstep hz fun htaken => ?_, hcode⟩
      obtain ⟨_, _, hzombie⟩ := taken_zombie hstep htaken
      obtain rfl := Option.some.inj (hpr.symm.trans hzombie)
      exact hcode rfl
  · obtain ⟨pr, hpr, hcode⟩ := new_parent hs hstep hyz hold
    exact ⟨pr, hpr, hcode⟩

/-- A process that takes a step is there. -/
theorem actor_alive (hstep : s.step act = some s') (hx : act.actor = some x) : s.proc x ≠ none := by
  intro hno
  cases act with
  | reap q => cases hx
  | _ =>
    obtain rfl := Option.some.inj hx
    simp [Sys.step, hno] at hstep

section Next

variable {code rest child : List Stmt} {fds : Fds} {p : ℕ × ℕ}

/-- A process that is about to end does so. -/
theorem step_at_exit (hproc : s.proc x = some ⟨.shell code, fds, p⟩)
    (hnext : next code = .exit :: rest) (h : s.step act = some s') (hx : act.actor = some x) :
    s' = s.zombify x p := by
  cases stepped hproc h hx with
  | own hown => simp [Proc.own, hnext] at hown
  | fail hfail => simp [Proc.fail, hnext] at hfail
  | fork hforks => simp [Proc.forks, hnext] at hforks
  | wait hwaits => simp [Proc.waits, hnext] at hwaits
  | noChild hwaits => simp [Proc.waits, hnext] at hwaits
  | exit => rfl

/-- A program ends. -/
theorem step_at_program {path : List Chr} {argv : List Word}
    (hproc : s.proc x = some ⟨.program path argv, fds, p⟩) (h : s.step act = some s')
    (hx : act.actor = some x) : s' = s.zombify x p := by
  cases stepped hproc h hx with
  | own hown => simp [Proc.own] at hown
  | fail hfail => simp [Proc.fail] at hfail
  | fork hforks => simp [Proc.forks] at hforks
  | wait hwaits => simp [Proc.waits] at hwaits
  | noChild hwaits => simp [Proc.waits] at hwaits
  | exit => rfl

/-- A process that has ended does nothing. -/
theorem step_at_zombie (hproc : s.proc x = some ⟨.zombie, fds, p⟩) (h : s.step act = some s')
    (hx : act.actor = some x) : False := by
  cases stepped hproc h hx with
  | own hown => simp [Proc.own] at hown
  | fail hfail => simp [Proc.fail] at hfail
  | fork hforks => simp [Proc.forks] at hforks
  | wait hwaits => simp [Proc.waits] at hwaits
  | noChild hwaits => simp [Proc.waits] at hwaits
  | exit hends => simp [Proc.ends] at hends

/-- At a `fork1` there is a new process, or the call fails and the process goes on all the same. -/
theorem step_at_fork (hproc : s.proc x = some ⟨.shell code, fds, p⟩)
    (hnext : next code = .fork1 child :: rest) (hs : s.Parented) (h : s.step act = some s')
    (hx : act.actor = some x) :
    act.taken = none ∧ ((∃ q, Forked s s' x q ⟨.shell rest, fds, p⟩ ⟨.shell child, fds, p⟩) ∨
      s' = s.set x (some ⟨.shell rest, fds, p⟩)) := by
  cases stepped hproc h hx with
  | own hown => simp [Proc.own, hnext] at hown
  | fail hfail =>
    simp only [Proc.fail, hnext, Option.some.injEq] at hfail
    exact ⟨rfl, .inr (hfail ▸ rfl)⟩
  | @fork q _ _ hforks hfree =>
    simp only [Proc.forks, hnext, Option.some.injEq, Prod.mk.injEq] at hforks
    obtain ⟨rfl, rfl⟩ := hforks
    exact ⟨rfl, .inl ⟨q, forked _ _ hs hproc hfree rfl⟩⟩
  | wait hwaits => simp [Proc.waits, hnext] at hwaits
  | noChild hwaits => simp [Proc.waits, hnext] at hwaits
  | exit hends => simp [Proc.ends, hnext] at hends

/-- A process closes a descriptor. -/
theorem step_at_close {fd : Arg} (hproc : s.proc x = some ⟨.shell code, fds, p⟩)
    (hnext : next code = .close fd :: rest) (h : s.step act = some s') (hx : act.actor = some x) :
    act.taken = none ∧ s' = s.set x (some ⟨.shell rest, close fds (fd.val p), p⟩) := by
  cases stepped hproc h hx with
  | own hown =>
    simp only [Proc.own, hnext, Option.some.injEq, Prod.mk.injEq] at hown
    obtain ⟨rfl, rfl⟩ := hown
    exact ⟨rfl, rfl⟩
  | fail hfail => simp [Proc.fail, hnext] at hfail
  | fork hforks => simp [Proc.forks, hnext] at hforks
  | wait hwaits => simp [Proc.waits, hnext] at hwaits
  | noChild hwaits => simp [Proc.waits, hnext] at hwaits
  | exit hends => simp [Proc.ends, hnext] at hends

/-- The processes after a `wait`. -/
structure Waited (s s' : Sys) (x q : Pid) (parent : Proc) : Prop where
  zombie : ∃ fds p, s.proc q = some ⟨.zombie, fds, p⟩
  taken : s.IsChild q x
  parent : s'.proc x = some parent
  isChild : ∀ y z, s'.IsChild y z ↔ y ≠ q ∧ s.IsChild y z
  eq_none : ∀ y, s'.proc y = none ↔ y = q ∨ s.proc y = none
  pipes : s'.pipes = s.pipes

/-- At a `wait` a process with children takes one that has ended. -/
theorem step_at_wait (hproc : s.proc x = some ⟨.shell code, fds, p⟩)
    (hnext : next code = .wait :: rest) (hchild : s.IsChild q x) (h : s.step act = some s')
    (hx : act.actor = some x) :
    ∃ q, act.taken = some q ∧ Waited s s' x q ⟨.shell rest, fds, p⟩ := by
  cases stepped hproc h hx with
  | own hown => simp [Proc.own, hnext] at hown
  | fail hfail => simp [Proc.fail, hnext] at hfail
  | fork hforks => simp [Proc.forks, hnext] at hforks
  | @wait q _ _ _ hwaits hz hppid =>
    simp only [Proc.waits, hnext, Option.some.injEq] at hwaits
    subst hwaits
    have hne : q ≠ x := by
      rintro rfl
      simp [hproc] at hz
    refine ⟨q, rfl, ⟨_, _, hz⟩, ⟨by simp [hz], hppid⟩, Sys.set_self _ _ _, fun y z => ?_,
      fun y => ?_, rfl⟩
    · obtain rfl | hq := eq_or_ne y q
      · simp [Sys.IsChild, hne]
      · obtain rfl | hy := eq_or_ne y x
        · simp [Sys.IsChild, hq, hproc]
        · simp [Sys.IsChild, hq, hy]
    · by_cases hq : y = q <;> by_cases hy : y = x <;> simp_all
  | noChild _ hno => exact absurd hchild (hno q)
  | exit hends => simp [Proc.ends, hnext] at hends

/-- Without children a `wait` returns at once. -/
theorem step_at_wait_none (hproc : s.proc x = some ⟨.shell code, fds, p⟩)
    (hnext : next code = .wait :: rest) (hchild : ∀ y, ¬s.IsChild y x) (h : s.step act = some s')
    (hx : act.actor = some x) : s' = s.set x (some ⟨.shell rest, fds, p⟩) := by
  cases stepped hproc h hx with
  | own hown => simp [Proc.own, hnext] at hown
  | fail hfail => simp [Proc.fail, hnext] at hfail
  | fork hforks => simp [Proc.forks, hnext] at hforks
  | @wait q _ _ _ _ hz hppid => exact absurd ⟨by simp [hz], hppid⟩ (hchild q)
  | noChild hwaits =>
    simp only [Proc.waits, hnext, Option.some.injEq] at hwaits
    subst hwaits
    rfl
  | exit hends => simp [Proc.ends, hnext] at hends

end Next

end UnixV6.Sh
