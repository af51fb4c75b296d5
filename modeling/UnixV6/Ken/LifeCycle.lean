import UnixV6.Ken.Sig

/-!
# The life cycle of a process

What the process table looks like between any two steps: whose number is whose, who is whose child,
which swap block holds which exit word. Most steps leave all of this alone (`Table.quiet`); the rest
of the module goes through those that make a process, end one and lay one to rest.

All of it rests on `u_procp`, which is a neighbour of `u_signal`: `psig` with a number that is no
signal may clear it.
-/

open Function

namespace UnixV6

/-- Not a stage of `exit` past its beginning, nor of `wait`. -/
def ProcPc.calm : ProcPc → Prop
  | .user | .dumping _ => True
  | _ => False

namespace ProcSys

variable {s s' : ProcSys} {p q c : Slot}

/-! ## Numbers that are signals -/

/-- What `psig` finds is a signal, or its word is 0, so that nothing is stored at it. -/
def SigInTable (s : ProcSys) (p : Slot) : Prop :=
  (0 ≤ s.p_sig p ∧ s.p_sig p < NSIG) ∨ s.sigDfl p (s.p_sig p) = true

instance (s : ProcSys) (p : Slot) : Decidable (s.SigInTable p) :=
  inferInstanceAs (Decidable ((0 ≤ s.p_sig p ∧ s.p_sig p < NSIG) ∨ _ = true))

/-- A call of `wait` that has to sleep: there is a child, and none is a zombie. -/
def waitsFor (s : ProcSys) (p : Slot) : Prop :=
  (∃ c, s.isChild p c = true) ∧ ∀ c, s.isChild p c = true → s.p_stat c ≠ .szomb

instance (s : ProcSys) (p : Slot) : Decidable (s.waitsFor p) :=
  inferInstanceAs (Decidable ((∃ c, s.isChild p c = true) ∧ ∀ c, s.isChild p c = true → _ ≠ _))

/-- Whenever `psig` runs, in a trap or for a `wait` that a signal cuts short, it stores nothing
outside of `u_signal`. -/
def SigOk (s : ProcSys) : ProcAct → Prop
  | .psig p _ => s.SigInTable p
  | .wait p _ => s.waitsFor p → s.issig p = true → s.SigInTable p
  | .run p _ => s.pc p = .waitSleep → s.issig p = true → s.SigInTable p
  | _ => True

instance (s : ProcSys) : (a : ProcAct) → Decidable (s.SigOk a)
  | .psig p _ => inferInstanceAs (Decidable (s.SigInTable p))
  | .wait p _ => inferInstanceAs (Decidable (s.waitsFor p → s.issig p = true → s.SigInTable p))
  | .run p _ =>
    inferInstanceAs (Decidable (s.pc p = .waitSleep → s.issig p = true → s.SigInTable p))
  | .stat .. | .args .. | .other .. | .image .. | .fork .. | .rexit .. | .kill .. | .ssig ..
  | .exec .. | .setuid .. | .klopen .. | .tty .. | .epipe .. | .swapAlloc .. =>
    inferInstanceAs (Decidable True)

/-- Every process has its proc entry. -/
def Own (s : ProcSys) : Prop := ∀ p, s.u_procp p = some p

/-- The other words lie outside of the table. -/
theorem signal_ne {n : ℤ} (hn : 0 ≤ n ∧ n < NSIG) : n ≠ U_PROCP ∧ n ≠ U_UID ∧ n ≠ U_ARG := by
  simp only [U_PROCP, U_UID, U_ARG]
  omega

/-- For the number of a signal, to ignore it is `u_signal[n] == 1`. -/
theorem sigIgn_of_signal {n : ℤ} (hn : 0 ≤ n ∧ n < NSIG) :
    s.sigIgn p n = decide (s.u_signal p n = 1) := by
  obtain ⟨hprocp, -, harg⟩ := signal_ne hn
  rw [sigIgn, if_neg hprocp, if_neg harg]

/-- A signal is taken from the table alone. -/
theorem sigClear_of_signal {n : ℤ} (hn : 0 ≤ n ∧ n < NSIG) : s.sigClear p n =
    { s with u_signal := update s.u_signal p (update (s.u_signal p) n 0) } := by
  obtain ⟨hprocp, huid, harg⟩ := signal_ne hn
  rw [sigClear, if_neg hprocp, if_neg huid, if_neg harg]

/-- The process has its signal taken off. -/
def taken (s : ProcSys) (p : Slot) : ProcSys :=
  { s with
    p_sig := update s.p_sig p 0
    killed := update s.killed p false }

/-- `psig` of a signal with the default action goes on to the dump. -/
theorem psig_of_dfl (h : s.sigDfl p (s.p_sig p) = true) (w : ℤ) :
    s.psig p w = (s.taken p).goto p (.dumping w) := by
  have hdfl : (s.taken p).sigDfl p (s.p_sig p) = true := h
  change (if !(s.taken p).sigDfl p (s.p_sig p) then _ else _) = _
  rw [hdfl]
  rfl

/-- What `psig` does with a signal: the default action; or the handler, with the disposition
cleared or kept. -/
theorem psig_cases (h : s.SigInTable p) (w : ℤ) :
    s.psig p w = (s.taken p).goto p (.dumping w) ∨ s.psig p w = (s.taken p).goto p .user ∨
      ∃ n, (0 ≤ n ∧ n < NSIG) ∧ s.psig p w =
        { s.taken p with
          u_signal := update s.u_signal p (update (s.u_signal p) n 0) }.goto p .user := by
  have heq : s.psig p w =
      if !(s.taken p).sigDfl p (s.p_sig p) then
        if s.p_sig p ≠ SIGINS ∧ s.p_sig p ≠ SIGTRC then
          ((s.taken p).sigClear p (s.p_sig p)).goto p .user
        else (s.taken p).goto p .user
      else (s.taken p).goto p (.dumping w) := rfl
  rw [heq]
  split
  · next hdfl =>
    -- the number is not one with the word 0
    have hn : 0 ≤ s.p_sig p ∧ s.p_sig p < NSIG := by
      refine h.resolve_right fun hzero => ?_
      rw [show (s.taken p).sigDfl p (s.p_sig p) = s.sigDfl p (s.p_sig p) from rfl, hzero] at hdfl
      cases hdfl
    split
    · rw [sigClear_of_signal hn]
      exact .inr (.inr ⟨s.p_sig p, hn, rfl⟩)
    · exact .inr (.inl rfl)
  · exact .inl rfl

/-- The process table between two steps. -/
structure Table (s : ProcSys) : Prop where
  sched : s.p_stat 0 ≠ .null ∧ s.p_stat 0 ≠ .szomb ∧ s.p_pid 0 = 0
  init : s.p_stat 1 ≠ .null ∧ s.p_stat 1 ≠ .szomb ∧ s.p_pid 1 = 1
  free : ∀ p, s.p_stat p = .null → s.p_pid p = 0 ∧ s.p_ppid p = 0 ∧ (s.pc p = .user ∨ s.pc p = .dead)
  pos : ∀ p, p ≠ 0 → s.p_stat p ≠ .null → 0 < s.p_pid p
  inj : ∀ p q, s.p_stat p ≠ .null → s.p_stat q ≠ .null → s.p_pid p = s.p_pid q → p = q
  parent : ∀ p, p ≠ 0 → p ≠ 1 → s.p_stat p ≠ .null →
    ∃ r, (r ≠ 0 ∧ r ≠ p) ∧ s.p_stat r ≠ .null ∧ s.p_stat r ≠ .szomb ∧ s.p_pid r = s.p_ppid p
  creator : ∀ p, p ≠ 0 → p ≠ 1 → s.p_stat p ≠ .null →
    s.p_ppid p = s.creator p ∨ (s.p_ppid p = 1 ∧ s.orphan p = true)
  zombie : ∀ p, s.p_stat p = .szomb → s.pc p = .dead ∧ s.blk (s.p_addr p) = s.exited p
  dead : ∀ p, s.pc p = .dead → s.p_stat p = .null ∨ s.p_stat p = .szomb
  /-- A process that sleeps in `wait` has no zombie child. -/
  asleep : ∀ p, s.pc p = .waitSleep → s.p_stat p = .srun ∨
    (s.p_stat p = .swait ∧ ∀ c, s.p_stat c = .szomb → s.p_ppid c ≠ s.p_pid p)
  reaping : ∀ p c pid, s.pc p = .reaping c pid →
    s.p_stat c = .szomb ∧ s.p_ppid c = s.p_pid p ∧ s.p_pid c = pid
  word : ∀ p, s.pc p = .closing ∨ (∃ a, s.pc p = .writing a) → s.u_arg0 p = s.exited p
  addr : ∀ p q, s.p_stat p = .szomb → s.p_stat q = .szomb → s.p_addr p = s.p_addr q → p = q
  writing : ∀ p a, s.pc p = .writing a → (∀ q, s.p_stat q = .szomb → s.p_addr q ≠ a) ∧
    ∀ q, s.pc q = .writing a → q = p

/-- What a step keeps that makes no process, ends none and lays none to rest. -/
structure Quiet (s s' : ProcSys) : Prop where
  pid : s'.p_pid = s.p_pid
  ppid : s'.p_ppid = s.p_ppid
  addr : s'.p_addr = s.p_addr
  born : s'.creator = s.creator ∧ s'.orphan = s.orphan ∧ s'.exited = s.exited
  blk : ∀ p, s.p_stat p = .szomb → s'.blk (s.p_addr p) = s.blk (s.p_addr p)
  null : ∀ p, s'.p_stat p = .null ↔ s.p_stat p = .null
  szomb : ∀ p, s'.p_stat p = .szomb ↔ s.p_stat p = .szomb
  pc : ∀ p, s'.pc p = s.pc p ∨
    ((s'.pc p).calm ∧ s.p_stat p ≠ .null ∧ s.p_stat p ≠ .szomb)
  /-- Nobody falls asleep in `wait`. -/
  asleep : ∀ p, s'.pc p = .waitSleep → s'.p_stat p = .srun ∨ s'.p_stat p = s.p_stat p
  word : ∀ p, s'.u_arg0 p = s.u_arg0 p ∨ s.pc p = .user

theorem Quiet.refl (s : ProcSys) : Quiet s s :=
  ⟨rfl, rfl, rfl, ⟨rfl, rfl, rfl⟩, fun _ _ => rfl, fun _ => Iff.rfl, fun _ => Iff.rfl,
    fun _ => .inl rfl, fun _ _ => .inr rfl, fun _ => .inl rfl⟩

/-- A place that is not calm has not changed. -/
theorem Quiet.pc_eq (hq : Quiet s s') {k : ProcPc} (h : s'.pc p = k) (hk : ¬ k.calm) :
    s.pc p = k := by
  rcases hq.pc p with hsame | ⟨hcalm, -⟩
  · exact hsame ▸ h
  · exact absurd (h ▸ hcalm) hk

theorem Table.quiet (h : Table s) (hq : Quiet s s') : Table s' := by
  -- a step that is quiet changes no entry's kind, number or parent
  have hnull : ∀ {p}, s'.p_stat p ≠ .null → s.p_stat p ≠ .null := fun hp hs => hp ((hq.null _).mpr hs)
  have hszomb : ∀ {p}, s'.p_stat p = .szomb → s.p_stat p = .szomb := (hq.szomb _).mp
  refine ⟨?_, ?_, fun p hp => ?_, fun p h0 hp => ?_, fun p q hp hq' => ?_, fun p h0 h1 hp => ?_,
    fun p h0 h1 hp => ?_, fun p hp => ?_, fun p hp => ?_, fun p hp => ?_,
    fun p c pid hp => ?_, fun p hp => ?_, fun p q hp hq' => ?_, fun p a hp => ⟨fun q hq' => ?_,
    fun q hq' => ?_⟩⟩
  · rw [Ne, Ne, hq.null, hq.szomb, hq.pid]
    exact h.sched
  · rw [Ne, Ne, hq.null, hq.szomb, hq.pid]
    exact h.init
  · -- a free entry
    have hp := (hq.null p).mp hp
    rw [hq.pid, hq.ppid]
    rcases hq.pc p with hpc | ⟨-, hlive, -⟩
    · rw [hpc]
      exact h.free p hp
    · exact absurd hp hlive
  · -- numbers are positive
    rw [hq.pid]
    exact h.pos p h0 (hnull hp)
  · -- and unique
    rw [hq.pid]
    exact h.inj p q (hnull hp) (hnull hq')
  · -- the parent
    obtain ⟨r, hr⟩ := h.parent p h0 h1 (hnull hp)
    rw [hq.pid, hq.ppid]
    exact ⟨r, hr.1, (hq.null r).not.mpr hr.2.1, (hq.szomb r).not.mpr hr.2.2.1, hr.2.2.2⟩
  · -- who has made the process
    rw [hq.ppid, hq.born.1, hq.born.2.1]
    exact h.creator p h0 h1 (hnull hp)
  · -- a zombie
    have hp := hszomb hp
    rw [hq.addr, hq.blk p hp, hq.born.2.2]
    rcases hq.pc p with hpc | ⟨-, -, hlive⟩
    · rw [hpc]
      exact h.zombie p hp
    · exact absurd hp hlive
  · -- whoever is dead
    rw [hq.null, hq.szomb]
    exact h.dead p (hq.pc_eq hp id)
  · -- whoever waits for children
    rcases hq.asleep p hp with hrun | hsame
    · exact .inl hrun
    · rw [hsame, hq.ppid, hq.pid]
      exact (h.asleep p (hq.pc_eq hp id)).imp id fun hwait =>
        ⟨hwait.1, fun c hc => hwait.2 c (hszomb hc)⟩
  · -- whoever has found a zombie
    rw [hq.szomb, hq.ppid, hq.pid]
    exact h.reaping p c pid (hq.pc_eq hp id)
  · -- the word for the parent
    rw [hq.born.2.2]
    have hpc : s.pc p = .closing ∨ ∃ a, s.pc p = .writing a := by
      rcases hp with hp | ⟨a, hp⟩
      · exact .inl (hq.pc_eq hp id)
      · exact .inr ⟨a, hq.pc_eq hp id⟩
    rcases hq.word p with hword | huser
    · rw [hword]
      exact h.word p hpc
    · rw [huser] at hpc
      rcases hpc with hpc | ⟨a, hpc⟩ <;> cases hpc
  · -- no two zombies have one block
    rw [hq.addr]
    exact h.addr p q (hszomb hp) (hszomb hq')
  · rw [hq.addr]
    exact (h.writing p a (hq.pc_eq hp id)).1 q (hszomb hq')
  · exact (h.writing p a (hq.pc_eq hp id)).2 q (hq.pc_eq hq' id)

/-! ## The quiet steps -/

/-- A step that changes none of the fields of the table. -/
theorem Quiet.of_eq (hstat : s'.p_stat = s.p_stat) (hpc : s'.pc = s.pc) (hpid : s'.p_pid = s.p_pid)
    (hppid : s'.p_ppid = s.p_ppid) (haddr : s'.p_addr = s.p_addr)
    (hborn : s'.creator = s.creator ∧ s'.orphan = s.orphan ∧ s'.exited = s.exited)
    (hblk : s'.blk = s.blk) (hword : s'.u_arg0 = s.u_arg0) : Quiet s s' :=
  ⟨hpid, hppid, haddr, hborn, fun _ _ => by rw [hblk], fun _ => by rw [hstat],
    fun _ => by rw [hstat], fun _ => .inl (by rw [hpc]), fun _ _ => .inr (by rw [hstat]),
    fun _ => .inl (by rw [hword])⟩

/-- To post a signal is quiet. -/
theorem quiet_post (s : ProcSys) (sel : Slot → Bool) (sig : ℤ) : Quiet s (s.post sel sig) where
  pid := rfl
  ppid := rfl
  addr := rfl
  born := ⟨rfl, rfl, rfl⟩
  blk _ _ := rfl
  null p := by
    simp only [post]
    split
    · next hp => simp [hp.2]
    · rfl
  szomb p := by
    simp only [post]
    split
    · next hp => simp [hp.2]
    · rfl
  pc _ := .inl rfl
  asleep p _ := by
    simp only [post]
    split
    · exact .inl rfl
    · exact .inr rfl
  word _ := .inl rfl

/-- To post a signal to a group is quiet. -/
theorem quiet_psignals {sel : ProcSys → Slot → Bool} (hsel : Steady sel) (s : ProcSys) (sig : ℤ) :
    Quiet s (s.psignals sel sig) := by
  rw [psignals_eq hsel]
  split
  · exact quiet_post s (sel s) sig
  · exact Quiet.refl s

theorem quiet_psignal (s : ProcSys) (p : Slot) (sig : ℤ) : Quiet s (s.psignal p sig) := by
  by_cases hsig : sig < NSIG
  · rw [psignal_eq_post s p hsig]
    exact quiet_post s _ sig
  · rw [psignal, if_pos (by omega)]
    exact Quiet.refl s

/-- A live process goes on at a calm place. -/
theorem Quiet.of_goto {k : ProcPc} (hstat : s'.p_stat = s.p_stat) (hpc : s'.pc = update s.pc p k)
    (hk : k.calm) (hlive : s.p_stat p ≠ .null ∧ s.p_stat p ≠ .szomb) (hpid : s'.p_pid = s.p_pid)
    (hppid : s'.p_ppid = s.p_ppid) (haddr : s'.p_addr = s.p_addr)
    (hborn : s'.creator = s.creator ∧ s'.orphan = s.orphan ∧ s'.exited = s.exited)
    (hblk : s'.blk = s.blk) (hword : s'.u_arg0 = s.u_arg0) : Quiet s s' := by
  refine ⟨hpid, hppid, haddr, hborn, fun _ _ => by rw [hblk], fun _ => by rw [hstat],
    fun _ => by rw [hstat], fun q => ?_, fun _ _ => .inr (by rw [hstat]),
    fun _ => .inl (by rw [hword])⟩
  rw [hpc]
  rcases eq_or_ne q p with rfl | hq
  · rw [update_self]
    exact .inr ⟨hk, hlive⟩
  · exact .inl (update_of_ne hq k s.pc)

/-- A process that runs is neither a free slot nor a zombie, nor the scheduler. -/
theorem live_of_running (h : s.running p = true) :
    p ≠ 0 ∧ s.p_stat p = .srun ∧ s.p_stat p ≠ .null ∧ s.p_stat p ≠ .szomb := by
  have h : p ≠ 0 ∧ s.p_stat p = .srun := by
    simpa [runnable] using (Bool.and_eq_true_iff.mp h).1
  refine ⟨h.1, h.2, ?_, ?_⟩ <;> rw [h.2] <;> decide

theorem procp_of_running (h : s.running p = true) : s.u_procp p = some p :=
  of_decide_eq_true (Bool.and_eq_true_iff.mp h).2

theorem Own.running (h : Own s) : s.running p = s.runnable p := by
  simp [ProcSys.running, h p]

/-- The fields that `newproc` reads through `u_procp`. -/
theorem procPid_of_running (h : s.running p = true) : s.procPid p = s.p_pid p := by
  simp [procPid, procp_of_running h]

/-- `psig` is quiet before the process exits. -/
theorem quiet_psig (hlive : s.p_stat p ≠ .null ∧ s.p_stat p ≠ .szomb) (hsig : s.SigInTable p)
    (w : ℤ) : Quiet s (s.psig p w) := by
  obtain h | h | ⟨n, -, h⟩ := psig_cases hsig w
  all_goals
    rw [h]
    exact Quiet.of_goto rfl rfl trivial hlive rfl rfl rfl ⟨rfl, rfl, rfl⟩ rfl rfl

/-- The end of `wait` is quiet. -/
theorem quiet_waitDone (hlive : s.p_stat p ≠ .null ∧ s.p_stat p ≠ .szomb) (r : WaitResult) :
    Quiet s (s.waitDone p r) :=
  Quiet.of_goto rfl rfl trivial hlive rfl rfl rfl ⟨rfl, rfl, rfl⟩ rfl rfl

/-- Going to sleep and waking up are quiet, outside `wait`. -/
theorem quiet_stat {st : PStat} (hlive : s.p_stat p ≠ .null ∧ s.p_stat p ≠ .szomb)
    (hpc : s.pc p ≠ .waitSleep) (hst : st ≠ .null ∧ st ≠ .szomb) :
    Quiet s { s with p_stat := update s.p_stat p st } := by
  refine ⟨rfl, rfl, rfl, ⟨rfl, rfl, rfl⟩, fun _ _ => rfl, fun q => ?_, fun q => ?_, fun _ => .inl rfl,
    fun q hq => ?_, fun _ => .inl rfl⟩
  · rcases eq_or_ne q p with rfl | hqp
    · simp [hlive.1, hst.1]
    · simp [update_of_ne hqp]
  · rcases eq_or_ne q p with rfl | hqp
    · simp [hlive.2, hst.2]
    · simp [update_of_ne hqp]
  · rcases eq_or_ne q p with rfl | hqp
    · exact absurd hq hpc
    · exact .inr (update_of_ne hqp st s.p_stat)

/-! ## Making a process -/

/-- `newproc` chooses a number that is not used. -/
theorem nextPid_spec {used : ℤ → Bool} {fuel : ℕ} {m pid : ℤ}
    (h : nextPid used fuel m = some pid) : 0 ≤ pid ∧ used pid = false := by
  induction fuel generalizing m with
  | zero => cases h
  | succ fuel ih =>
    simp only [nextPid] at h
    split at h
    · exact ih h
    · next hneg =>
      split at h
      · exact ih h
      · next hused =>
        obtain rfl := Option.some.inj h
        exact ⟨by omega, by simpa using hused⟩

theorem not_used {pid : ℤ} (h : s.pidUsed pid = false) (p : Slot) : s.p_pid p ≠ pid := by
  have hp := (List.any_eq_false.mp h) p (List.mem_finRange p)
  simpa using hp

theorem freeSlot_spec (h : s.freeSlot = some c) : s.p_stat c = .null := by
  simpa using List.find?_some h

/-- The new process: a number that nobody has, and its maker as parent. -/
theorem Table.newproc (h : Table s) (hp : s.running p = true) (hc : s.p_stat c = .null)
    (hs : s.newproc p c = some s') : Table s' := by
  obtain ⟨pid, hpid, rfl⟩ := Option.map_eq_some_iff.mp hs
  obtain ⟨hpos, hused⟩ := nextPid_spec hpid
  -- the new number is nobody's
  have hfresh := not_used hused
  obtain ⟨hp0, -, hplive, hpzomb⟩ := live_of_running hp
  -- whoever is in the table is not the entry taken
  have hne : ∀ {q}, s.p_stat q ≠ .null → q ≠ c := fun hq hqc => hq (hqc ▸ hc)
  have hpc := hne hplive
  refine ⟨?_, ?_, fun q hq => ?_, fun q h0 hq => ?_, fun q r hq hr hqr => ?_, fun q h0 h1 hq => ?_,
    fun q h0 h1 hq => ?_, fun q hq => ?_, fun q hq => ?_, fun q hq => ?_,
    fun q x n hq => ?_, fun q hq => ?_, fun q r hq hr hqr => ?_, fun q a hq => ⟨fun r hr => ?_,
    fun r hr => ?_⟩⟩
  · -- the scheduler and `init` are there already
    simpa [goto, update_of_ne (hne h.sched.1)] using h.sched
  · simpa [goto, update_of_ne (hne h.init.1)] using h.init
  · -- a free entry
    rcases eq_or_ne q c with rfl | hqc
    · simp [goto] at hq
    · simp only [goto, update_of_ne hqc] at hq ⊢
      exact h.free q hq
  · -- numbers are positive
    rcases eq_or_ne q c with rfl | hqc
    · have hzero := hfresh 0
      rw [h.sched.2.2] at hzero
      simp only [goto, update_self]
      omega
    · simp only [goto, update_of_ne hqc] at hq ⊢
      exact h.pos q h0 hq
  · -- and unique: nobody has the new one
    rcases eq_or_ne q c with rfl | hqc <;> rcases eq_or_ne r q with rfl | hrq
    · rfl
    · simp only [goto, update_self, update_of_ne hrq] at hqr
      exact absurd hqr.symm (hfresh r)
    · rfl
    · rcases eq_or_ne r c with rfl | hrc
      · simp only [goto, update_self, update_of_ne hqc] at hqr
        exact absurd hqr (hfresh q)
      · simp only [goto, update_of_ne hqc, update_of_ne hrc] at hq hr hqr
        exact h.inj q r hq hr hqr
  · -- the parent is the maker
    rcases eq_or_ne q c with rfl | hqc
    · refine ⟨p, ⟨hp0, hpc⟩, ?_⟩
      simp only [goto, update_self, update_of_ne hpc, procPid_of_running hp]
      exact ⟨hplive, hpzomb, trivial⟩
    · simp only [goto, update_of_ne hqc] at hq ⊢
      obtain ⟨r, hr0, hr, hr'⟩ := h.parent q h0 h1 hq
      refine ⟨r, hr0, ?_⟩
      rw [update_of_ne (hne hr), update_of_ne (hne hr)]
      exact ⟨hr, hr'⟩
  · -- who has made the process
    rcases eq_or_ne q c with rfl | hqc
    · exact .inl (by simp [goto, procPid_of_running hp])
    · simp only [goto, update_of_ne hqc] at hq ⊢
      exact h.creator q h0 h1 hq
  · -- a zombie is not the new process
    rcases eq_or_ne q c with rfl | hqc
    · simp [goto] at hq
    · simp only [goto, update_of_ne hqc] at hq ⊢
      exact h.zombie q hq
  · -- nor is whoever is dead
    rcases eq_or_ne q c with rfl | hqc
    · simp [goto] at hq
    · simp only [goto, update_of_ne hqc] at hq ⊢
      exact h.dead q hq
  · -- nor whoever waits for children
    rcases eq_or_ne q c with rfl | hqc
    · simp [goto] at hq
    simp only [goto, update_of_ne hqc] at hq ⊢
    refine (h.asleep q hq).imp id fun hwait => ⟨hwait.1, fun x hx => ?_⟩
    rcases eq_or_ne x c with rfl | hxc
    · simp at hx
    · simp only [update_of_ne hxc] at hx ⊢
      exact hwait.2 x hx
  · -- nor whoever has found a zombie
    rcases eq_or_ne q c with rfl | hqc
    · simp [goto] at hq
    simp only [goto, update_of_ne hqc] at hq ⊢
    have hx := h.reaping q x n hq
    have hxc : x ≠ c := hne (by rw [hx.1]; decide)
    simpa only [update_of_ne hxc] using hx
  · -- the word for the parent
    rcases eq_or_ne q c with rfl | hqc
    · simp [goto] at hq
    · simp only [goto, update_of_ne hqc] at hq ⊢
      exact h.word q hq
  · -- no two zombies have one block
    rcases eq_or_ne q c with rfl | hqc
    · simp [goto] at hq
    rcases eq_or_ne r c with rfl | hrc
    · simp [goto] at hr
    simp only [goto, update_of_ne hqc, update_of_ne hrc] at hq hr hqr
    exact h.addr q r hq hr hqr
  · rcases eq_or_ne q c with rfl | hqc
    · simp [goto] at hq
    rcases eq_or_ne r c with rfl | hrc
    · simp [goto] at hr
    simp only [goto, update_of_ne hqc, update_of_ne hrc] at hq hr ⊢
    exact (h.writing q a hq).1 r hr
  · rcases eq_or_ne q c with rfl | hqc
    · simp [goto] at hq
    rcases eq_or_ne r c with rfl | hrc
    · simp [goto] at hr
    simp only [goto, update_of_ne hqc, update_of_ne hrc] at hq hr
    exact (h.writing q a hq).2 r hr

/-! ## The stages of `exit` and `wait` -/

/-- A live process moves to another place; the rest of the table stays. -/
structure Moves (s s' : ProcSys) (p : Slot) (k : ProcPc) : Prop where
  live : s.p_stat p ≠ .null ∧ s.p_stat p ≠ .szomb
  pid : s'.p_pid = s.p_pid
  ppid : s'.p_ppid = s.p_ppid
  addr : s'.p_addr = s.p_addr
  born : s'.creator = s.creator ∧ s'.orphan = s.orphan
  blk : s'.blk = s.blk
  stat : ∀ q, q ≠ p → s'.p_stat q = s.p_stat q
  here : s'.p_stat p ≠ .null ∧ s'.p_stat p ≠ .szomb
  pc : s'.pc = update s.pc p k
  word : ∀ q, q ≠ p → s'.u_arg0 q = s.u_arg0 q ∧ s'.exited q = s.exited q

/-- The new place has to be right; all else follows. -/
theorem Table.moves {k : ProcPc} (h : Table s) (hm : Moves s s' p k) (hdead : k ≠ .dead)
    (hasleep : k = .waitSleep →
      s'.p_stat p = .swait ∧ ∀ c, s.p_stat c = .szomb → s.p_ppid c ≠ s.p_pid p)
    (hreap : ∀ c pid, k = .reaping c pid →
      s.p_stat c = .szomb ∧ s.p_ppid c = s.p_pid p ∧ s.p_pid c = pid)
    (hword : k = .closing ∨ (∃ a, k = .writing a) → s'.u_arg0 p = s'.exited p)
    (hwrite : ∀ a, k = .writing a → s.freeBlk a) : Table s' := by
  -- only `p` has moved
  have hself : s'.pc p = k := by rw [hm.pc, update_self]
  have hother : ∀ q, q ≠ p → s'.pc q = s.pc q := fun q hq => by rw [hm.pc, update_of_ne hq]
  -- and no entry has changed its kind
  have hzomb : ∀ q, s'.p_stat q = .szomb ↔ s.p_stat q = .szomb := by
    intro q
    rcases eq_or_ne q p with rfl | hq
    · exact iff_of_false hm.here.2 hm.live.2
    · rw [hm.stat q hq]
  have hnull : ∀ q, s'.p_stat q = .null ↔ s.p_stat q = .null := by
    intro q
    rcases eq_or_ne q p with rfl | hq
    · exact iff_of_false hm.here.1 hm.live.1
    · rw [hm.stat q hq]
  have hnep : ∀ {q}, s.p_stat q = .szomb → q ≠ p := fun hq hqp => hm.live.2 (hqp ▸ hq)
  refine ⟨?_, ?_, fun q hq => ?_, fun q h0 hq => ?_, fun q r hq hr hqr => ?_, fun q h0 h1 hq => ?_,
    fun q h0 h1 hq => ?_, fun q hq => ?_, fun q hq => ?_, fun q hq => ?_,
    fun q x n hq => ?_, fun q hq => ?_, fun q r hq hr hqr => ?_, fun q a hq => ⟨fun r hr => ?_,
    fun r hr => ?_⟩⟩
  · rw [Ne, Ne, hnull, hzomb, hm.pid]
    exact h.sched
  · rw [Ne, Ne, hnull, hzomb, hm.pid]
    exact h.init
  · -- a free entry
    have hq := (hnull q).mp hq
    rw [hm.pid, hm.ppid, hother q fun hqp => hm.live.1 (hqp ▸ hq)]
    exact h.free q hq
  · -- numbers are positive
    rw [Ne, hnull] at hq
    rw [hm.pid]
    exact h.pos q h0 hq
  · -- and unique
    rw [Ne, hnull] at hq hr
    rw [hm.pid] at hqr
    exact h.inj q r hq hr hqr
  · -- the parent
    rw [Ne, hnull] at hq
    obtain ⟨r, hr⟩ := h.parent q h0 h1 hq
    rw [hm.pid, hm.ppid]
    exact ⟨r, hr.1, (hnull r).not.mpr hr.2.1, (hzomb r).not.mpr hr.2.2.1, hr.2.2.2⟩
  · -- who has made the process
    rw [Ne, hnull] at hq
    rw [hm.ppid, hm.born.1, hm.born.2]
    exact h.creator q h0 h1 hq
  · -- a zombie
    have hq := (hzomb q).mp hq
    rw [hother q (hnep hq), hm.addr, hm.blk, (hm.word q (hnep hq)).2]
    exact h.zombie q hq
  · -- whoever is dead
    rcases eq_or_ne q p with rfl | hqp
    · exact absurd (hself.symm.trans hq) hdead
    · rw [hnull, hzomb]
      exact h.dead q (hother q hqp ▸ hq)
  · -- whoever waits for children
    rw [hm.ppid, hm.pid]
    rcases eq_or_ne q p with rfl | hqp
    · obtain ⟨hwait, hno⟩ := hasleep (hself.symm.trans hq)
      exact .inr ⟨hwait, fun x hx => hno x ((hzomb x).mp hx)⟩
    · rw [hm.stat q hqp]
      exact (h.asleep q (hother q hqp ▸ hq)).imp id fun hwait =>
        ⟨hwait.1, fun x hx => hwait.2 x ((hzomb x).mp hx)⟩
  · -- whoever has found a zombie
    rw [hzomb, hm.ppid, hm.pid]
    rcases eq_or_ne q p with rfl | hqp
    · exact hreap x n (hself.symm.trans hq)
    · exact h.reaping q x n (hother q hqp ▸ hq)
  · -- the word for the parent
    rcases eq_or_ne q p with rfl | hqp
    · rw [hself] at hq
      exact hword hq
    · rw [hother q hqp] at hq
      rw [(hm.word q hqp).1, (hm.word q hqp).2]
      exact h.word q hq
  · -- no two zombies have one block
    rw [hzomb] at hq hr
    rw [hm.addr] at hqr
    exact h.addr q r hq hr hqr
  · -- and nobody else writes to a block
    rw [hzomb] at hr
    rw [hm.addr]
    rcases eq_or_ne q p with rfl | hqp
    · exact (hwrite a (hself.symm.trans hq) r).1 hr
    · exact (h.writing q a (hother q hqp ▸ hq)).1 r hr
  · -- or has got it from the map
    rcases eq_or_ne q p with rfl | hqp
    · by_contra hrq
      exact (hwrite a (hself.symm.trans hq) r).2 (hother r hrq ▸ hr)
    · rcases eq_or_ne r p with rfl | hrp
      · exact absurd (hother q hqp ▸ hq) (hwrite a (hself.symm.trans hr) q).2
      · exact (h.writing q a (hother q hqp ▸ hq)).2 r (hother r hrp ▸ hr)

/-- `exit` closes the files, and keeps the table in order. -/
theorem Table.exit (h : Table s) (hlive : s.p_stat p ≠ .null ∧ s.p_stat p ≠ .szomb) (w : ℤ) :
    Table (s.exit p w) := by
  refine h.moves (p := p) (k := .closing) ⟨hlive, rfl, rfl, rfl, ⟨rfl, rfl⟩, rfl, fun _ _ => rfl,
    hlive, rfl, fun q hq => ?_⟩ nofun nofun nofun (fun _ => ?_) nofun
  · simp [ProcSys.exit, goto, update_of_ne hq]
  · simp [ProcSys.exit, goto]

/-- `exit` gets its swap block. -/
theorem Table.swapAlloc {a : ℕ} (h : Table s)
    (hlive : s.p_stat p ≠ .null ∧ s.p_stat p ≠ .szomb) (hpc : s.pc p = .closing)
    (ha : s.freeBlk a) : Table (s.goto p (.writing a)) := by
  refine h.moves (p := p) (k := .writing a) ⟨hlive, rfl, rfl, rfl, ⟨rfl, rfl⟩, rfl, fun _ _ => rfl,
    hlive, rfl, fun _ _ => ⟨rfl, rfl⟩⟩ nofun nofun nofun (fun _ => ?_) fun b hb => ?_
  · exact h.word p (.inl hpc)
  · cases hb
    exact ha

/-- A signal cuts the sleep of `wait` short. -/
theorem Table.eintr (h : Table s) (hlive : s.p_stat p ≠ .null ∧ s.p_stat p ≠ .szomb)
    (hsig : s.SigInTable p) (w : ℤ) : Table ((s.waitDone p .eintr).psig p w) := by
  have hdone : Table (s.waitDone p .eintr) := h.quiet (quiet_waitDone hlive .eintr)
  have hlive' : (s.waitDone p .eintr).p_stat p ≠ .null ∧ (s.waitDone p .eintr).p_stat p ≠ .szomb :=
    hlive
  exact hdone.quiet (quiet_psig hlive' hsig w)

/-- The turn of the loop that finds children and no zombie. -/
theorem waitsFor_of_scan {f : Bool}
    (hnone : (List.finRange NPROC).find? (fun c => s.isChild p c && s.p_stat c = .szomb) = none)
    (hany : (f || (List.finRange NPROC).any (s.isChild p)) = true) :
    f = true ∨ s.waitsFor p := by
  refine (Bool.or_eq_true_iff.mp hany).imp id fun hany => ?_
  obtain ⟨c, -, hc⟩ := List.any_eq_true.mp hany
  refine ⟨⟨c, hc⟩, fun d hd hzomb => ?_⟩
  have hno := List.find?_eq_none.mp hnone d (List.mem_finRange d)
  simp [hd, hzomb] at hno

/-- `wait` looks for a child. -/
theorem Table.waitScan (h : Table s) (hp : s.running p = true) (f : Bool)
    (hsig : f = true ∨ s.waitsFor p → s.issig p = true → s.SigInTable p) (w : ℤ) :
    Table (s.waitScan p f w) := by
  obtain ⟨-, -, hlive⟩ := live_of_running hp
  unfold ProcSys.waitScan
  split
  · next c hfind =>
    have hc : s.p_ppid c = s.p_pid p ∧ s.p_stat c = .szomb := by
      simpa [isChild] using List.find?_some hfind
    refine h.moves (p := p) (k := .reaping c (s.p_pid c)) ⟨hlive, rfl, rfl, rfl, ⟨rfl, rfl⟩, rfl,
      fun _ _ => rfl, hlive, rfl, fun _ _ => ⟨rfl, rfl⟩⟩ nofun nofun (fun c' pid hk => ?_) ?_ nofun
    · cases hk
      exact ⟨hc.2, hc.1, rfl⟩
    · rintro (hk | ⟨a, hk⟩) <;> cases hk
  · next hnone =>
    split
    · next hany =>
      split
      · next hissig => exact h.eintr hlive (hsig (waitsFor_of_scan hnone hany) hissig) w
      · refine h.moves (p := p) (k := .waitSleep) ⟨hlive, rfl, rfl, rfl, ⟨rfl, rfl⟩, rfl, ?_, ?_,
          rfl, fun _ _ => ⟨rfl, rfl⟩⟩ nofun (fun _ => ⟨?_, fun c hc hppid => ?_⟩) nofun ?_ nofun
        · exact fun q hq => update_of_ne hq _ _
        · simp [goto]
        · simp [goto]
        · have hno := List.find?_eq_none.mp hnone c (List.mem_finRange c)
          simp [isChild, hppid, hc] at hno
        · rintro (hk | ⟨a, hk⟩) <;> cases hk
    · exact h.quiet (quiet_waitDone hlive .echild)

/-- `wait` wakes up and looks again, or is interrupted. -/
theorem Table.waitWoken (h : Table s) (hp : s.running p = true)
    (hsig : s.issig p = true → s.SigInTable p) (w : ℤ) : Table (s.waitWoken p w) := by
  obtain ⟨-, -, hlive⟩ := live_of_running hp
  unfold ProcSys.waitWoken
  split
  · next hissig => exact h.eintr hlive (hsig hissig) w
  · next hissig => exact h.waitScan hp true (fun _ => hsig) w

/-- A process that has a place in the kernel has a slot. -/
theorem Table.not_null (h : Table s) (hp : s.pc p ≠ .user ∧ s.pc p ≠ .dead) :
    s.p_stat p ≠ .null := by
  intro hnull
  rcases (h.free p hnull).2.2 with hpc | hpc
  · exact hp.1 hpc
  · exact hp.2 hpc

/-- The slot of the child becomes free. -/
theorem Table.reap {pid : ℤ} (h : Table s) (hp : s.running p = true)
    (hpc : s.pc p = .reaping c pid) : Table (s.reap p c pid) := by
  obtain ⟨hp0, -, hplive, hpzomb⟩ := live_of_running hp
  obtain ⟨hzomb, hppid, -⟩ := h.reaping p c pid hpc
  have hcp : p ≠ c := fun hpc => hpzomb (hpc ▸ hzomb)
  have hc0 : (0 : Slot) ≠ c := fun h0 => h.sched.2.1 (h0 ▸ hzomb)
  have hc1 : (1 : Slot) ≠ c := fun h1 => h.init.2.1 (h1 ▸ hzomb)
  have hstat : (s.reap p c pid).p_stat = update s.p_stat c .null := rfl
  have hpids : (s.reap p c pid).p_pid = update s.p_pid c 0 := rfl
  have hppids : (s.reap p c pid).p_ppid = update s.p_ppid c 0 := rfl
  have hpcs : (s.reap p c pid).pc = update s.pc p .user := rfl
  have hrest : (s.reap p c pid).p_addr = s.p_addr ∧ (s.reap p c pid).blk = s.blk ∧
    (s.reap p c pid).exited = s.exited ∧ (s.reap p c pid).u_arg0 = s.u_arg0 ∧
    (s.reap p c pid).creator = s.creator ∧ (s.reap p c pid).orphan = s.orphan :=
    ⟨rfl, rfl, rfl, rfl, rfl, rfl⟩
  generalize s.reap p c pid = s' at hstat hpids hppids hpcs hrest
  obtain ⟨haddr, hblk, hexited, harg, hcreator, horphan⟩ := hrest
  have hpcuser : ∀ {q : Slot} {k : ProcPc}, s'.pc q = k → k ≠ .user → q ≠ p ∧ s.pc q = k := by
    intro q k hq hk
    rw [hpcs] at hq
    have hqp : q ≠ p := by
      rintro rfl
      rw [update_self] at hq
      exact hk hq.symm
    rw [update_of_ne hqp] at hq
    exact ⟨hqp, hq⟩
  have hnull : ∀ {q}, s'.p_stat q ≠ .null → q ≠ c ∧ s.p_stat q ≠ .null := by
    intro q hq
    rw [hstat] at hq
    have hqc : q ≠ c := by
      rintro rfl
      rw [update_self] at hq
      exact hq rfl
    rw [update_of_ne hqc] at hq
    exact ⟨hqc, hq⟩
  have hszomb : ∀ {q}, s'.p_stat q = .szomb → q ≠ c ∧ s.p_stat q = .szomb := by
    intro q hq
    have hqc := (hnull (by rw [hq]; decide)).1
    rw [hstat, update_of_ne hqc] at hq
    exact ⟨hqc, hq⟩
  refine ⟨?_, ?_, fun q hq => ?_, fun q h0 hq => ?_, fun q r hq hr hqr => ?_, fun q h0 h1 hq => ?_,
    fun q h0 h1 hq => ?_, fun q hq => ?_, fun q hq => ?_, fun q hq => ?_,
    fun q x n hq => ?_, fun q hq => ?_, fun q r hq hr hqr => ?_, fun q a hq => ⟨fun r hr => ?_,
    fun r hr => ?_⟩⟩
  · -- the scheduler and `init` are no zombies
    rw [hstat, hpids, update_of_ne hc0, update_of_ne hc0]
    exact h.sched
  · rw [hstat, hpids, update_of_ne hc1, update_of_ne hc1]
    exact h.init
  · -- a free entry: that of the child is cleared
    rw [hpids, hppids, hpcs]
    rcases eq_or_ne q c with rfl | hqc
    · rw [update_self, update_self, update_of_ne (Ne.symm hcp)]
      exact ⟨rfl, rfl, .inr (h.zombie q hzomb).1⟩
    · rw [hstat, update_of_ne hqc] at hq
      have hqp : q ≠ p := fun hqp => hplive (hqp ▸ hq)
      rw [update_of_ne hqc, update_of_ne hqc, update_of_ne hqp]
      exact h.free q hq
  · obtain ⟨hqc, hq⟩ := hnull hq
    rw [hpids, update_of_ne hqc]
    exact h.pos q h0 hq
  · obtain ⟨hqc, hq⟩ := hnull hq
    obtain ⟨hrc, hr⟩ := hnull hr
    rw [hpids, update_of_ne hqc, update_of_ne hrc] at hqr
    exact h.inj q r hq hr hqr
  · -- a parent is no zombie, so it is not the child
    obtain ⟨hqc, hq⟩ := hnull hq
    obtain ⟨r, hr0, hr, hrz, hrq⟩ := h.parent q h0 h1 hq
    have hrc : r ≠ c := fun hrc => hrz (hrc ▸ hzomb)
    refine ⟨r, hr0, ?_⟩
    rw [hstat, hpids, hppids, update_of_ne hrc, update_of_ne hrc, update_of_ne hqc]
    exact ⟨hr, hrz, hrq⟩
  · obtain ⟨hqc, hq⟩ := hnull hq
    rw [hppids, update_of_ne hqc, hcreator, horphan]
    exact h.creator q h0 h1 hq
  · -- the zombies that are left
    obtain ⟨hqc, hq⟩ := hszomb hq
    have hqp : q ≠ p := fun hqp => hpzomb (hqp ▸ hq)
    rw [hpcs, update_of_ne hqp, haddr, hblk, hexited]
    exact h.zombie q hq
  · obtain ⟨hqp, hq⟩ := hpcuser hq nofun
    rw [hstat]
    rcases eq_or_ne q c with rfl | hqc
    · exact .inl (update_self q _ _)
    · rw [update_of_ne hqc]
      exact h.dead q hq
  · -- whoever sleeps in `wait` has one zombie less to miss
    obtain ⟨hqp, hq⟩ := hpcuser hq nofun
    have hqc : q ≠ c := by
      rintro rfl
      rw [(h.zombie q hzomb).1] at hq
      cases hq
    rw [hstat, update_of_ne hqc]
    refine (h.asleep q hq).imp id fun hwait => ⟨hwait.1, fun x hx => ?_⟩
    rw [← hstat] at hx
    obtain ⟨hxc, hx⟩ := hszomb hx
    rw [hppids, hpids, update_of_ne hxc, update_of_ne hqc]
    exact hwait.2 x hx
  · obtain ⟨hqp, hq⟩ := hpcuser hq nofun
    obtain ⟨hx, hxq, hxn⟩ := h.reaping q x n hq
    have hqnull := h.not_null (p := q) (by rw [hq]; exact ⟨nofun, nofun⟩)
    -- Only the parent lays a child to rest, and there is one.
    have hxc : x ≠ c := by
      rintro rfl
      exact hqp (h.inj q p hqnull hplive (hxq.symm.trans hppid))
    have hqc : q ≠ c := by
      rintro rfl
      rw [(h.zombie q hzomb).1] at hq
      cases hq
    rw [hstat, hppids, hpids, update_of_ne hxc, update_of_ne hxc, update_of_ne hxc,
      update_of_ne hqc]
    exact ⟨hx, hxq, hxn⟩
  · -- what is in the swap blocks is as it was
    rw [harg, hexited]
    refine h.word q ?_
    rcases hq with hq | ⟨a, hq⟩
    · exact .inl (hpcuser hq nofun).2
    · exact .inr ⟨a, (hpcuser hq nofun).2⟩
  · rw [haddr] at hqr
    exact h.addr q r (hszomb hq).2 (hszomb hr).2 hqr
  · rw [haddr]
    exact (h.writing q a (hpcuser hq nofun).2).1 r (hszomb hr).2
  · exact (h.writing q a (hpcuser hq nofun).2).2 r (hpcuser hr nofun).2

/-- The parent that `exit` finds is the one that there is. -/
theorem Table.parent_eq (h : Table s) (st : PStat) (blk : ℕ → ℤ) (addr : Slot → ℕ) (h0 : p ≠ 0)
    (h1 : p ≠ 1) (hp : s.p_stat p ≠ .null) :
    ∃ r, ({ s with
        blk := blk
        p_addr := addr
        p_stat := update s.p_stat p st } : ProcSys).parent p = some r ∧ (r ≠ 0 ∧ r ≠ p) ∧
      s.p_stat r ≠ .null ∧ s.p_stat r ≠ .szomb ∧ s.p_pid r = s.p_ppid p := by
  obtain ⟨r, hr0, hr, hrz, hrp⟩ := h.parent p h0 h1 hp
  have hsome : ((List.finRange NPROC).find? fun q => s.p_pid q = s.p_ppid p).isSome := by
    rw [List.find?_isSome]
    exact ⟨r, List.mem_finRange r, by simpa using hrp⟩
  obtain ⟨r', hr'⟩ := Option.isSome_iff_exists.mp hsome
  have hr'p : s.p_pid r' = s.p_ppid p := by simpa using List.find?_some hr'
  -- A free slot has number 0, and no parent has that.
  have hr'n : s.p_stat r' ≠ .null := by
    intro hnull
    have hzero := (h.free r' hnull).1
    have hpos := h.pos r hr0.1 hr
    omega
  obtain rfl : r' = r := h.inj r' r hr'n hr (hr'p.trans hrp.symm)
  exact ⟨r', hr', hr0, hr, hrz, hrp⟩

/-- A wakeup leaves everything but the state of a sleeper in `wait` alone. -/
theorem wakeProc_stat (s : ProcSys) (p q : Slot) :
    (s.wakeProc p).p_stat q =
      if q = p ∧ s.pc p = .waitSleep ∧ s.p_stat p = .swait then .srun else s.p_stat q := by
  simp only [wakeProc]
  split
  · next hwait =>
    rcases eq_or_ne q p with rfl | hq
    · rw [update_self, if_pos ⟨rfl, hwait⟩]
    · rw [update_of_ne hq, if_neg fun h => hq h.1]
  · next hwait => rw [if_neg fun h => hwait h.2]

/-- Two wakeups after each other. -/
theorem wakeProc_wakeProc_stat (s : ProcSys) (p r q : Slot) :
    ((s.wakeProc p).wakeProc r).p_stat q =
      if (q = r ∨ q = p) ∧ s.pc q = .waitSleep ∧ s.p_stat q = .swait then .srun
      else s.p_stat q := by
  rw [wakeProc_stat]
  split
  · next hr =>
    obtain ⟨rfl, hpc, hstat⟩ := hr
    rw [wakeProc_stat] at hstat
    split at hstat
    · cases hstat
    · rw [if_pos ⟨.inl rfl, hpc, hstat⟩]
  · next hr =>
    rw [wakeProc_stat]
    split
    · next hp =>
      obtain ⟨rfl, hpc, hstat⟩ := hp
      rw [if_pos ⟨.inr rfl, hpc, hstat⟩]
    · next hp =>
      rw [if_neg]
      rintro ⟨rfl | rfl, hpc, hstat⟩
      · refine hr ⟨rfl, hpc, ?_⟩
        rw [wakeProc_stat]
        split
        · next hboth => exact absurd ⟨hboth.1, hboth.1 ▸ hpc, hboth.1 ▸ hstat⟩ hp
        · exact hstat
      · exact hp ⟨rfl, hpc, hstat⟩

/-- What the last stage of `exit` does: `p` becomes a zombie with its word in block `a`, its children
go to process 1, and process 1 and the parent `r` are woken. -/
structure Exits (s s' : ProcSys) (p r : Slot) (a : ℕ) : Prop where
  live : s.p_stat p ≠ .null ∧ s.p_stat p ≠ .szomb
  own : p ≠ 0 ∧ p ≠ 1
  writing : s.pc p = .writing a
  parent : r ≠ p ∧ s.p_stat r ≠ .null ∧ s.p_pid r = s.p_ppid p
  pid : s'.p_pid = s.p_pid
  ppid : ∀ q, s'.p_ppid q = if s.p_ppid q = s.p_pid p then 1 else s.p_ppid q
  orphan : ∀ q, s'.orphan q = if s.p_ppid q = s.p_pid p then true else s.orphan q
  creator : s'.creator = s.creator
  exited : s'.exited = s.exited
  word : s'.u_arg0 = s.u_arg0
  addr : s'.p_addr = update s.p_addr p a
  blk : s'.blk = update s.blk a (s.u_arg0 p)
  pc : s'.pc = update s.pc p .dead
  zombie : s'.p_stat p = .szomb
  stat : ∀ q, q ≠ p → s'.p_stat q =
    if (q = r ∨ q = 1) ∧ s.pc q = .waitSleep ∧ s.p_stat q = .swait then .srun else s.p_stat q

/-- The last stage of `exit` finds the parent. -/
theorem Table.exits {a : ℕ} (h : Table s) (hp : s.running p = true) (h1 : p ≠ 1)
    (hpc : s.pc p = .writing a) (hs : s.exitDone p a = some s') : ∃ r, Exits s s' p r a := by
  obtain ⟨hp0, -, hlive⟩ := live_of_running hp
  obtain ⟨r, hfind, ⟨-, hrp⟩, hr, -, hrpid⟩ := h.parent_eq .szomb
    (update s.blk a (s.u_arg0 p)) (update s.p_addr p a) hp0 h1 hlive.1
  simp only [ProcSys.exitDone, hfind, Option.some.injEq] at hs
  subst hs
  refine ⟨r, hlive, ⟨hp0, h1⟩, hpc, ⟨hrp, hr, hrpid⟩, rfl, fun _ => rfl, fun _ => rfl, rfl, rfl, rfl,
    rfl, rfl, rfl, ?_, fun q hq => ?_⟩
  · simp only [leave, goto, handOver, wakeProc_wakeProc_stat, update_self]
    exact if_neg fun hwait => nomatch hwait.2.2
  · simp only [leave, goto, handOver, wakeProc_wakeProc_stat, update_of_ne hq]

namespace Exits

variable {r : Slot} {a : ℕ} (hx : Exits s s' p r a)

include hx

/-- Whoever is woken was alive and stays so. -/
theorem kind (hq : q ≠ p) : (s'.p_stat q = .null ↔ s.p_stat q = .null) ∧
    (s'.p_stat q = .szomb ↔ s.p_stat q = .szomb) := by
  rw [hx.stat q hq]
  split
  · next hwoken =>
    rw [hwoken.2.2]
    exact ⟨iff_of_false nofun nofun, iff_of_false nofun nofun⟩
  · exact ⟨Iff.rfl, Iff.rfl⟩

theorem not_null (hq : s'.p_stat q ≠ .null) : s.p_stat q ≠ .null := by
  rcases eq_or_ne q p with rfl | hqp
  · exact hx.live.1
  · exact fun hs => hq ((hx.kind hqp).1.mpr hs)

theorem szomb (hq : s'.p_stat q = .szomb) : q = p ∨ q ≠ p ∧ s.p_stat q = .szomb := by
  rcases eq_or_ne q p with rfl | hqp
  · exact .inl rfl
  · exact .inr ⟨hqp, (hx.kind hqp).2.mp hq⟩

theorem pc_self : s'.pc p = .dead := by rw [hx.pc, update_self]

theorem pc_other (hq : q ≠ p) : s'.pc q = s.pc q := by rw [hx.pc, update_of_ne hq]

/-- Whoever is not dead is where it was. -/
theorem place {k : ProcPc} (hq : s'.pc q = k) (hk : k ≠ .dead) : q ≠ p ∧ s.pc q = k := by
  have hqp : q ≠ p := by
    rintro rfl
    exact hk (hq.symm.trans hx.pc_self)
  exact ⟨hqp, (hx.pc_other hqp).symm.trans hq⟩

/-- Every process has a parent: the children of `p` have process 1. -/
theorem has_parent (h : Table s) (h0 : q ≠ 0) (h1 : q ≠ 1) (hq : s'.p_stat q ≠ .null) :
    ∃ t, (t ≠ 0 ∧ t ≠ q) ∧ s'.p_stat t ≠ .null ∧ s'.p_stat t ≠ .szomb ∧
      s'.p_pid t = s'.p_ppid q := by
  rw [hx.pid, hx.ppid]
  split
  · refine ⟨1, ⟨by decide, Ne.symm h1⟩, ?_⟩
    rw [Ne, Ne, (hx.kind (Ne.symm hx.own.2)).1, (hx.kind (Ne.symm hx.own.2)).2]
    exact h.init
  · next hkept =>
    obtain ⟨t, ht0, ht, htz, htq⟩ := h.parent q h0 h1 (hx.not_null hq)
    have htp : t ≠ p := fun htp => hkept (htp ▸ htq.symm)
    exact ⟨t, ht0, (hx.kind htp).1.not.mpr ht, (hx.kind htp).2.not.mpr htz, htq⟩

/-- Whoever still sleeps in `wait` has children, and none of them is a zombie. -/
theorem asleep (h : Table s) (hq : s'.pc q = .waitSleep) : s'.p_stat q = .srun ∨
    s'.p_stat q = .swait ∧ ∀ c, s'.p_stat c = .szomb → s'.p_ppid c ≠ s'.p_pid q := by
  obtain ⟨hqp, hq⟩ := hx.place hq nofun
  have hqnull := h.not_null (p := q) (by rw [hq]; exact ⟨nofun, nofun⟩)
  rw [hx.stat q hqp]
  split
  · exact .inl rfl
  · next hkept =>
    refine (h.asleep q hq).imp id fun hwait => ⟨hwait.1, fun x hzomb => ?_⟩
    -- it has not been woken, so it is neither process 1 nor the parent
    have hqr : ¬ (q = r ∨ q = 1) := fun hwoken => hkept ⟨hwoken, hq, hwait.1⟩
    obtain ⟨hrp, hr, hrpid⟩ := hx.parent
    rw [hx.ppid, hx.pid]
    rcases hx.szomb hzomb with rfl | ⟨hxp, hzomb⟩
    · rw [if_neg]
      · exact fun heq => hqr (.inl (h.inj q r hqnull hr (heq.symm.trans hrpid.symm)))
      · exact fun heq => hrp (h.inj r x hr hx.live.1 (hrpid.trans heq))
    · split
      · exact fun heq => hqr (.inr (h.inj q 1 hqnull h.init.1 (heq.symm.trans h.init.2.2.symm)))
      · exact hwait.2 x hzomb

/-- Whoever has found a zombie still has it: it is no child of `p`. -/
theorem reaping (h : Table s) {n : ℤ} (hq : s'.pc q = .reaping c n) :
    s'.p_stat c = .szomb ∧ s'.p_ppid c = s'.p_pid q ∧ s'.p_pid c = n := by
  obtain ⟨hqp, hq⟩ := hx.place hq nofun
  obtain ⟨hzomb, hcq, hcn⟩ := h.reaping q c n hq
  have hqnull := h.not_null (p := q) (by rw [hq]; exact ⟨nofun, nofun⟩)
  have hcp : c ≠ p := fun hcp => hx.live.2 (hcp ▸ hzomb)
  rw [(hx.kind hcp).2, hx.ppid, hx.pid, if_neg]
  · exact ⟨hzomb, hcq, hcn⟩
  · exact fun heq => hqp (h.inj q p hqnull hx.live.1 (hcq.symm.trans heq))

/-- No two zombies have one block: nobody else wrote to `a`. -/
theorem addr_injective (h : Table s) {t : Slot} (hq : s'.p_stat q = .szomb)
    (ht : s'.p_stat t = .szomb) (hqt : s'.p_addr q = s'.p_addr t) : q = t := by
  have hwrite := (h.writing p a hx.writing).1
  rw [hx.addr] at hqt
  rcases hx.szomb hq with rfl | ⟨hqp, hq⟩ <;> rcases hx.szomb ht with rfl | ⟨htp, ht⟩
  · rfl
  · rw [update_self, update_of_ne htp] at hqt
    exact absurd hqt.symm (hwrite t ht)
  · rw [update_self, update_of_ne hqp] at hqt
    exact absurd hqt (hwrite q hq)
  · rw [update_of_ne hqp, update_of_ne htp] at hqt
    exact h.addr q t hq ht hqt

/-- A block that is still written to has no zombie's word. -/
theorem writes_apart (h : Table s) {b : ℕ} {t : Slot} (hq : s'.pc q = .writing b)
    (ht : s'.p_stat t = .szomb) : s'.p_addr t ≠ b := by
  obtain ⟨hqp, hq⟩ := hx.place hq nofun
  rw [hx.addr]
  rcases hx.szomb ht with rfl | ⟨htp, ht⟩
  · rw [update_self]
    rintro rfl
    exact hqp ((h.writing _ _ hx.writing).2 q hq)
  · rw [update_of_ne htp]
    exact (h.writing q b hq).1 t ht

end Exits

/-- The slot becomes a zombie, its children go to process 1, and both parents are woken. -/
theorem Table.exitDone {a : ℕ} (h : Table s) (hp : s.running p = true) (h1 : p ≠ 1)
    (hpc : s.pc p = .writing a) (hs : s.exitDone p a = some s') : Table s' := by
  obtain ⟨r, hx⟩ := h.exits hp h1 hpc hs
  have hppos := h.pos p hx.own.1 hx.live.1
  refine ⟨?_, ?_, fun q hq => ?_, fun q h0 hq => ?_, fun q t hq ht hqt => ?_,
    fun q h0 h1q hq => hx.has_parent h h0 h1q hq, fun q h0 h1q hq => ?_, fun q hq => ?_,
    fun q hq => ?_, fun q hq => hx.asleep h hq, fun q x n hq => hx.reaping h hq, fun q hq => ?_,
    fun q t hq ht hqt => hx.addr_injective h hq ht hqt,
    fun q b hq => ⟨fun t ht => hx.writes_apart h hq ht, fun t ht => ?_⟩⟩
  · -- the scheduler and `init` are not the one that ends
    rw [Ne, Ne, (hx.kind (Ne.symm hx.own.1)).1, (hx.kind (Ne.symm hx.own.1)).2, hx.pid]
    exact h.sched
  · rw [Ne, Ne, (hx.kind (Ne.symm h1)).1, (hx.kind (Ne.symm h1)).2, hx.pid]
    exact h.init
  · -- a free entry
    rcases eq_or_ne q p with rfl | hqp
    · rw [hx.zombie] at hq
      cases hq
    · obtain ⟨hqpid, hqppid, hqpc⟩ := h.free q ((hx.kind hqp).1.mp hq)
      rw [hx.pid, hx.ppid, if_neg (by omega), hx.pc_other hqp]
      exact ⟨hqpid, hqppid, hqpc⟩
  · -- numbers are positive
    rw [hx.pid]
    exact h.pos q h0 (hx.not_null hq)
  · -- and unique
    rw [hx.pid] at hqt
    exact h.inj q t (hx.not_null hq) (hx.not_null ht) hqt
  · -- who has made the process
    rw [hx.ppid, hx.orphan, hx.creator]
    split
    · exact .inr ⟨rfl, rfl⟩
    · exact h.creator q h0 h1q (hx.not_null hq)
  · -- a zombie
    rw [hx.exited, hx.blk, hx.addr]
    rcases hx.szomb hq with rfl | ⟨hqp, hq⟩
    · rw [hx.pc_self, update_self, update_self]
      exact ⟨rfl, h.word q (.inr ⟨a, hpc⟩)⟩
    · rw [hx.pc_other hqp, update_of_ne hqp,
        update_of_ne ((h.writing p a hpc).1 q hq)]
      exact h.zombie q hq
  · -- whoever is dead
    rcases eq_or_ne q p with rfl | hqp
    · exact .inr hx.zombie
    · rw [(hx.kind hqp).1, (hx.kind hqp).2]
      exact h.dead q ((hx.pc_other hqp).symm.trans hq)
  · -- the word for the parent
    rw [hx.word, hx.exited]
    refine h.word q ?_
    rcases hq with hq | ⟨b, hq⟩
    · exact .inl (hx.place hq nofun).2
    · exact .inr ⟨b, (hx.place hq nofun).2⟩
  · -- no two processes write to one block
    exact (h.writing q b (hx.place hq nofun).2).2 t (hx.place ht nofun).2

/-! ## Every step -/

/-- What a step can be: one that leaves the table alone, or one of the stages above. -/
inductive StepCase (s : ProcSys) (a : ProcAct) (s' : ProcSys) : Prop
  | quiet (h : Quiet s s') (hwaits : s'.waits = s.waits) (hprocp : s'.u_procp = s.u_procp)
  | newproc (p c : Slot) (hp : s.running p = true) (hc : s.p_stat c = .null)
      (h : s.newproc p c = some s')
  | exit (p : Slot) (w : ℤ) (hp : s.running p = true) (h : s' = s.exit p w)
  | swapAlloc (p : Slot) (b : ℕ) (hp : s.running p = true) (hpc : s.pc p = .closing)
      (hb : s.freeBlk b) (h : s' = s.goto p (.writing b))
  | exitDone (p : Slot) (b : ℕ) (hp : s.running p = true) (hpc : s.pc p = .writing b)
      (h : s.exitDone p b = some s')
  | psig (p : Slot) (w : ℤ) (ha : a = .psig p w) (hp : s.running p = true) (h : s' = s.psig p w)
  | waitScan (p : Slot) (w : ℤ) (ha : a = .wait p w) (hp : s.running p = true)
      (h : s' = s.waitScan p false w)
  | waitWoken (p : Slot) (w : ℤ) (ha : a = .run p w) (hp : s.running p = true)
      (hpc : s.pc p = .waitSleep) (h : s' = s.waitWoken p w)
  | reap (p c : Slot) (pid w : ℤ) (ha : a = .run p w) (hp : s.running p = true)
      (hpc : s.pc p = .reaping c pid) (h : s' = s.reap p c pid)

/-- Signals to a group end no `wait`. -/
theorem waits_psignals {sel : ProcSys → Slot → Bool} (hsel : Steady sel) (s : ProcSys) (sig : ℤ) :
    (s.psignals sel sig).waits = s.waits := by
  rw [psignals_eq hsel]
  split <;> rfl

/-- A signal to one process ends no `wait`. -/
theorem waits_psignal (s : ProcSys) (p : Slot) (sig : ℤ) : (s.psignal p sig).waits = s.waits := by
  unfold psignal
  split <;> rfl

/-- Signals to a group change no user area. -/
theorem procp_psignals {sel : ProcSys → Slot → Bool} (hsel : Steady sel) (s : ProcSys) (sig : ℤ) :
    (s.psignals sel sig).u_procp = s.u_procp := by
  rw [psignals_eq hsel]
  split <;> rfl

/-- A signal to one process changes no user area. -/
theorem procp_psignal (s : ProcSys) (p : Slot) (sig : ℤ) :
    (s.psignal p sig).u_procp = s.u_procp := by
  unfold psignal
  split <;> rfl

theorem procp_psig (h : s.SigInTable p) (w : ℤ) : (s.psig p w).u_procp = s.u_procp := by
  obtain h | h | ⟨n, -, h⟩ := psig_cases h w <;> rw [h] <;> rfl

/-- A step with a guard. -/
theorem of_guard {k : Prop} [Decidable k] {x : ProcSys} (h : (if k then some x else none) = some s') :
    k ∧ s' = x := by
  obtain ⟨hk, hx⟩ := Option.ite_none_right_eq_some.mp h
  exact ⟨hk, (Option.some.inj hx).symm⟩

/-- Every step is one of these. -/
theorem step_cases {a : ProcAct} (hown : Own s) (hs : s.step a = some s') : StepCase s a s' := by
  cases a with
  | stat p st =>
    obtain ⟨hguard, rfl⟩ := of_guard hs
    simp only [Bool.and_eq_true, decide_eq_true_eq] at hguard
    obtain ⟨⟨⟨⟨⟨hlive, hpc⟩, hnull⟩, hzomb⟩, -⟩, -⟩ := hguard
    have hlive : s.p_stat p ≠ .null ∧ s.p_stat p ≠ .szomb := by
      constructor <;> intro hstat <;> simp [live, hstat] at hlive
    exact .quiet (quiet_stat hlive hpc ⟨hnull, hzomb⟩) rfl rfl
  | args p v =>
    obtain ⟨hguard, rfl⟩ := of_guard hs
    have hpc : s.pc p = .user := by simpa using (Bool.and_eq_true_iff.mp hguard).2
    refine .quiet ?_ rfl rfl
    refine { Quiet.refl s with word := fun q => ?_ }
    -- the arguments change for a process in user mode only
    rcases eq_or_ne q p with rfl | hq
    · exact .inr hpc
    · exact .inl (update_of_ne hq v s.u_arg0)
  | other p n v =>
    obtain ⟨-, rfl⟩ := of_guard hs
    exact .quiet (Quiet.of_eq rfl rfl rfl rfl rfl ⟨rfl, rfl, rfl⟩ rfl rfl) rfl rfl
  | image b v =>
    obtain ⟨hfree, rfl⟩ := of_guard hs
    refine .quiet { Quiet.refl s with blk := fun p hp => ?_ } rfl rfl
    -- the block is no zombie's
    exact update_of_ne ((hfree p).1 hp) v s.blk
  | fork p =>
    obtain ⟨hguard, hs⟩ := Option.ite_none_right_eq_some.mp hs
    unfold ProcSys.fork at hs
    split at hs
    · obtain rfl := Option.some.inj hs
      exact .quiet (Quiet.refl s) rfl rfl
    · next c hc =>
      exact .newproc p c (hown.running ▸ (Bool.and_eq_true_iff.mp hguard).1) (freeSlot_spec hc) hs
  | rexit p w =>
    obtain ⟨hguard, hs⟩ := of_guard hs
    exact .exit p w (Bool.and_eq_true_iff.mp hguard).1 hs
  | wait p w =>
    obtain ⟨hguard, hs⟩ := of_guard hs
    exact .waitScan p w rfl (Bool.and_eq_true_iff.mp hguard).1 hs
  | kill p b sig =>
    obtain ⟨-, hs⟩ := of_guard hs
    rw [hs, kill_fst]
    exact .quiet (quiet_psignals (steady_killTarget p b) s sig)
      (waits_psignals (steady_killTarget p b) s sig) (procp_psignals (steady_killTarget p b) s sig)
  | ssig p b v =>
    obtain ⟨-, rfl⟩ := of_guard hs
    unfold ProcSys.ssig
    split
    · exact .quiet (Quiet.refl s) rfl rfl
    · exact .quiet (Quiet.of_eq rfl rfl rfl rfl rfl ⟨rfl, rfl, rfl⟩ rfl rfl) rfl rfl
  | exec p =>
    obtain ⟨-, rfl⟩ := of_guard hs
    exact .quiet (Quiet.of_eq rfl rfl rfl rfl rfl ⟨rfl, rfl, rfl⟩ rfl rfl) rfl rfl
  | setuid p uid =>
    obtain ⟨-, rfl⟩ := of_guard hs
    exact .quiet (Quiet.of_eq rfl rfl rfl rfl rfl ⟨rfl, rfl, rfl⟩ rfl rfl) rfl rfl
  | klopen p tp =>
    obtain ⟨-, rfl⟩ := of_guard hs
    exact .quiet (Quiet.of_eq rfl rfl rfl rfl rfl ⟨rfl, rfl, rfl⟩ rfl rfl) rfl rfl
  | tty tp quit =>
    obtain ⟨-, hs⟩ := Option.ite_none_right_eq_some.mp hs
    obtain rfl := Option.some.inj hs
    exact .quiet (quiet_psignals (steady_ttyp tp) s _) (waits_psignals (steady_ttyp tp) s _)
      (procp_psignals (steady_ttyp tp) s _)
  | epipe p =>
    obtain ⟨-, rfl⟩ := of_guard hs
    exact .quiet (quiet_psignal s p SIGPIPE) (waits_psignal s p SIGPIPE)
      (procp_psignal s p SIGPIPE)
  | psig p w =>
    obtain ⟨hguard, rfl⟩ := of_guard hs
    have hp := (Bool.and_eq_true_iff.mp (Bool.and_eq_true_iff.mp hguard).1).1
    exact .psig p w rfl hp rfl
  | swapAlloc p b =>
    obtain ⟨hguard, hs⟩ := Option.ite_none_right_eq_some.mp hs
    simp only [Bool.and_eq_true, decide_eq_true_eq] at hguard
    exact .swapAlloc p b hguard.1.1 hguard.1.2 hguard.2 (Option.some.inj hs).symm
  | run p w =>
    obtain ⟨hp, hs⟩ := Option.ite_none_right_eq_some.mp hs
    split at hs
    · next w' hpc => exact .exit p w' hp (Option.some.inj hs).symm
    · next b hpc => exact .exitDone p b hp hpc hs
    · next hpc => exact .waitWoken p w rfl hp hpc (Option.some.inj hs).symm
    · next c pid hpc => exact .reap p c pid w rfl hp hpc (Option.some.inj hs).symm
    · cases hs

/-- The search of `wait` leaves each process its own user area. -/
theorem Own.waitScan (h : Own s) {f : Bool}
    (hsig : f = true ∨ s.waitsFor p → s.issig p = true → s.SigInTable p) (w : ℤ) :
    Own (s.waitScan p f w) := by
  unfold ProcSys.waitScan
  split
  · exact h
  · next hnone =>
    split
    · next hany =>
      split
      · next hissig =>
        have hsig : (s.waitDone p .eintr).SigInTable p := hsig (waitsFor_of_scan hnone hany) hissig
        unfold Own
        rw [procp_psig hsig]
        exact h
      · exact h
    · exact h

/-- Every process keeps its proc entry. -/
theorem Own.step {a : ProcAct} (h : Own s) (hok : s.SigOk a) (hs : s.step a = some s') :
    Own s' := by
  cases step_cases h hs with
  | quiet _ _ hprocp =>
    unfold Own
    rw [hprocp]
    exact h
  -- the child's `u_procp` is its own entry
  | newproc p c hp hc hs =>
    obtain ⟨pid, -, rfl⟩ := Option.map_eq_some_iff.mp hs
    intro q
    rcases eq_or_ne q c with rfl | hqc
    · simp [goto, h p]
    · simp only [goto, update_of_ne hqc]
      exact h q
  | exit p w hp hs => exact hs ▸ h
  | swapAlloc p b hp hpc hb hs => exact hs ▸ h
  -- neither branch of the last stage touches `u_procp`
  | exitDone p b hp hpc hs =>
    simp only [ProcSys.exitDone] at hs
    split at hs
    · obtain rfl := Option.some.inj hs
      exact h
    · obtain ⟨r, -, rfl⟩ := Option.map_eq_some_iff.mp hs
      exact h
  -- a number inside the table leaves `u_procp` alone
  | psig p w ha hp hs =>
    rw [ha] at hok
    unfold Own
    rw [hs, procp_psig hok]
    exact h
  | waitScan p w ha hp hs =>
    -- without a wait for children no signal is looked at
    rw [ha] at hok
    rw [hs]
    exact h.waitScan (f := false) (fun hwaits => hok (hwaits.resolve_left Bool.false_ne_true)) w
  | waitWoken p w ha hp hpc hs =>
    rw [ha] at hok
    rw [hs]
    unfold ProcSys.waitWoken
    split
    · next hissig =>
      have hsig : (s.waitDone p .eintr).SigInTable p := hok hpc hissig
      unfold Own
      rw [procp_psig hsig]
      exact h
    · exact h.waitScan (fun _ => hok hpc) w
  | reap p c pid w ha hp hpc hs => exact hs ▸ h

/-- The step lemma. -/
theorem Table.step {a : ProcAct} (h : Table s) (hown : Own s) (hinit : s.exiting 1 = false)
    (hok : s.SigOk a) (hs : s.step a = some s') : Table s' := by
  cases step_cases hown hs with
  | quiet hq => exact h.quiet hq
  | newproc p c hp hc hs => exact h.newproc hp hc hs
  -- the steps that change the table have a lemma each
  | exit p w hp hs =>
    rw [hs]
    exact h.exit (live_of_running hp).2.2 w
  | swapAlloc p b hp hpc hb hs =>
    rw [hs]
    exact h.swapAlloc (live_of_running hp).2.2 hpc hb
  | exitDone p b hp hpc hs =>
    refine h.exitDone hp ?_ hpc hs
    -- process 1 does not come to its end
    rintro rfl
    simp [exiting, hpc, ProcPc.exits] at hinit
  -- a signal acts inside its own process
  | psig p w ha hp hs =>
    rw [ha] at hok
    rw [hs]
    exact h.quiet (quiet_psig (live_of_running hp).2.2 hok w)
  | waitScan p w ha hp hs =>
    rw [hs]
    rw [ha] at hok
    exact h.waitScan hp false (fun hwaits => hok (hwaits.resolve_left Bool.false_ne_true)) w
  | waitWoken p w ha hp hpc hs =>
    rw [hs]
    rw [ha] at hok
    exact h.waitWoken hp (hok hpc) w
  | reap p c pid w ha hp hpc hs =>
    rw [hs]
    exact h.reap hp hpc

/-! ## The results -/

end ProcSys

end UnixV6
