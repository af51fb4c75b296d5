import UnixV6.Ken.LifeCycle

/-!
# Signals and free slots

`newproc` does not set `p_sig`, so a new process starts without a pending signal only if free slots
have none. `kill(0, sig)` of a process without a controlling terminal selects free slots too, and
`psignal` drops a number from `NSIG` on; in runs without such calls free slots stay clean.
-/

open Function

namespace UnixV6

namespace ProcSys

variable {s s' : ProcSys} {p q c : Slot}

/-- Free slots, and processes to which no signal has been sent. -/
structure Clean (s : ProcSys) : Prop where
  sched : s.p_stat 0 ≠ .null ∧ s.p_stat 0 ≠ .szomb ∧ s.p_pid 0 = 0
  pos : ∀ p, p ≠ 0 → s.p_stat p ≠ .null → 0 < s.p_pid p
  free : ∀ p, s.p_stat p = .null → s.p_pid p = 0 ∧ s.p_ppid p = 0 ∧ s.p_ttyp p = 0
  sig : ∀ p, s.p_stat p = .null → s.p_sig p = 0
  fresh : ∀ p, s.p_stat p ≠ .null → s.sent p = false → s.p_sig p = 0
  reaping : ∀ p c pid, s.pc p = .reaping c pid → c ≠ 0

/-- What a step keeps that makes no process and frees no slot. -/
structure Tidy (s s' : ProcSys) : Prop where
  null : ∀ p, s'.p_stat p = .null ↔ s.p_stat p = .null
  sched : s'.p_stat 0 = s.p_stat 0 ∨ s'.p_stat 0 = .srun ∨ s.p_stat 0 = .null ∨ s'.p_stat 0 ≠ .szomb
  pid : s'.p_pid = s.p_pid
  ppid : ∀ p, s.p_stat p = .null → s.p_ppid p = 0 → s'.p_ppid p = 0
  ttyp : ∀ p, s.p_stat p = .null → s'.p_ttyp p = s.p_ttyp p
  sig : ∀ p, (s'.p_sig p = s.p_sig p ∧ s'.sent p = s.sent p) ∨ s'.p_sig p = 0 ∨
    (s.p_stat p ≠ .null ∧ s'.sent p = true)
  reaping : ∀ p c pid, s'.pc p = .reaping c pid → s.pc p = .reaping c pid ∨ s.p_stat c = .szomb

theorem Clean.tidy (h : Clean s) (ht : Tidy s s') : Clean s' := by
  refine ⟨⟨(ht.null 0).not.mpr h.sched.1, ?_, ?_⟩, fun p h0 hp => ?_, fun p hp => ?_, fun p hp => ?_,
    fun p hp hsent => ?_, fun p c pid hpc => ?_⟩
  -- process 0 keeps its state, runs, or has become a zombie
  · rcases ht.sched with hsame | hrun | hnull | hzomb
    · rw [hsame]
      exact h.sched.2.1
    · rw [hrun]
      decide
    · exact absurd hnull h.sched.1
    · exact hzomb
  · rw [ht.pid]
    exact h.sched.2.2
  · rw [ht.pid]
    exact h.pos p h0 ((ht.null p).not.mp hp)
  · have hp := (ht.null p).mp hp
    rw [ht.pid, ht.ttyp p hp]
    exact ⟨(h.free p hp).1, ht.ppid p hp (h.free p hp).2.1, (h.free p hp).2.2⟩
  · have hp := (ht.null p).mp hp
    -- a free slot keeps its signal or has none
    rcases ht.sig p with ⟨hsig, -⟩ | hzero | ⟨hlive, -⟩
    · rw [hsig]
      exact h.sig p hp
    · exact hzero
    · exact absurd hp hlive
  -- a sent signal is as it was, or it is marked
  · rcases ht.sig p with ⟨hsig, hsame⟩ | hzero | ⟨-, hset⟩
    · rw [hsig]
      exact h.fresh p ((ht.null p).not.mp hp) (hsame ▸ hsent)
    · exact hzero
    · rw [hset] at hsent
      cases hsent
  -- who is being reaped was before, or is a zombie
  · rcases ht.reaping p c pid hpc with hold | hzomb
    · exact h.reaping p c pid hold
    · rintro rfl
      exact h.sched.2.1 hzomb

/-! ## The steps -/

/-- `psignal` for a set of slots: a free slot among them gets no signal but 0. -/
theorem tidy_post {sel : Slot → Bool} {sig : ℤ}
    (hsel : ∀ p, sel p = true → s.p_stat p = .null → toChar sig = 0 ∨ s.p_sig p = SIGKIL)
    (hclean : Clean s) : Tidy s (s.post sel sig) := by
  have hq := quiet_post s sel sig
  refine ⟨hq.null, ?_, rfl, fun _ _ h => h, fun _ _ => rfl, fun p => ?_, fun _ _ _ h => .inl h⟩
  · exact .inr (.inr (.inr ((hq.szomb 0).not.mpr hclean.sched.2.1)))
  · by_cases hp : sel p = true
    · by_cases hnull : s.p_stat p = .null
      · have hzero := hclean.sig p hnull
        rcases hsel p hp hnull with hsig | hkill
        · refine .inr (.inl ?_)
          simp [post, hp, hzero, hsig, SIGKIL]
        · rw [hzero] at hkill
          cases hkill
      · refine .inr (.inr ⟨hnull, ?_⟩)
        simp [post, hp]
    · refine .inl ⟨?_, ?_⟩ <;> simp [post, hp]

/-- Signals to a group are tidy, if none goes to a free slot. -/
theorem tidy_psignals {sel : ProcSys → Slot → Bool} {sig : ℤ} (hsteady : Steady sel)
    (hsel : sig < NSIG → ∀ p, sel s p = true → s.p_stat p = .null → toChar sig = 0)
    (hclean : Clean s) : Tidy s (s.psignals sel sig) := by
  rw [psignals_eq hsteady]
  split
  · next hsig => exact tidy_post (fun p hp hnull => .inl (hsel hsig p hp hnull)) hclean
  · exact ⟨fun _ => Iff.rfl, .inl rfl, rfl, fun _ _ h => h, fun _ _ => rfl,
      fun _ => .inl ⟨rfl, rfl⟩, fun _ _ _ h => .inl h⟩

/-- A step of one process that touches no signal. -/
theorem Tidy.of_goto {k : ProcPc} (hnull : ∀ p, s'.p_stat p = .null ↔ s.p_stat p = .null)
    (hsched : s'.p_stat 0 = s.p_stat 0 ∨ s'.p_stat 0 = .srun ∨ s.p_stat 0 = .null ∨
      s'.p_stat 0 ≠ .szomb) (hpid : s'.p_pid = s.p_pid)
    (hppid : ∀ p, s.p_stat p = .null → s.p_ppid p = 0 → s'.p_ppid p = 0)
    (httyp : s'.p_ttyp = s.p_ttyp) (hsig : s'.p_sig = s.p_sig) (hsent : s'.sent = s.sent)
    (hpc : s'.pc = update s.pc p k)
    (hk : ∀ c pid, k = .reaping c pid → s.p_stat c = .szomb) : Tidy s s' := by
  refine ⟨hnull, hsched, hpid, hppid, fun _ _ => by rw [httyp],
    fun _ => .inl ⟨by rw [hsig], by rw [hsent]⟩, fun q c pid hq => ?_⟩
  rw [hpc] at hq
  rcases eq_or_ne q p with rfl | hqp
  · rw [update_self] at hq
    exact .inr (hk c pid hq)
  · rw [update_of_ne hqp] at hq
    exact .inl hq

theorem tidy_psig (w : ℤ) : Tidy s (s.psig p w) := by
  have hsig : ∀ q, (update s.p_sig p 0 q = s.p_sig q ∧ s.sent q = s.sent q) ∨
      update s.p_sig p 0 q = 0 ∨ (s.p_stat q ≠ .null ∧ s.sent q = true) := by
    intro q
    rcases eq_or_ne q p with rfl | hq
    · exact .inr (.inl (update_self q 0 s.p_sig))
    · exact .inl ⟨update_of_ne hq 0 s.p_sig, rfl⟩
  have hpc : ∀ k : ProcPc, (∀ c pid, k ≠ .reaping c pid) → ∀ q c pid,
      update s.pc p k q = .reaping c pid → s.pc q = .reaping c pid ∨ s.p_stat c = .szomb := by
    intro k hk q c pid hq
    rcases eq_or_ne q p with rfl | hqp
    · rw [update_self] at hq
      exact absurd hq (hk c pid)
    · rw [update_of_ne hqp] at hq
      exact .inl hq
  simp only [psig]
  split
  · split
    · exact ⟨fun _ => Iff.rfl, .inl rfl, rfl, fun _ _ h => h, fun _ _ => rfl, hsig, hpc _ (by simp)⟩
    · exact ⟨fun _ => Iff.rfl, .inl rfl, rfl, fun _ _ h => h, fun _ _ => rfl, hsig, hpc _ (by simp)⟩
  · exact ⟨fun _ => Iff.rfl, .inl rfl, rfl, fun _ _ h => h, fun _ _ => rfl, hsig, hpc _ (by simp)⟩

theorem tidy_waitDone (r : WaitResult) : Tidy s (s.waitDone p r) :=
  Tidy.of_goto (fun _ => Iff.rfl) (.inl rfl) rfl (fun _ _ h => h) rfl rfl rfl rfl (by simp)

theorem Clean.eintr (h : Clean s) (w : ℤ) : Clean ((s.waitDone p .eintr).psig p w) :=
  (h.tidy (tidy_waitDone .eintr)).tidy (tidy_psig w)

/-- The search of `wait` is tidy. -/
theorem Clean.waitScan (h : Clean s) (hp : s.running p = true) (f : Bool) (w : ℤ) :
    Clean (s.waitScan p f w) := by
  obtain ⟨hp0, -, hlive⟩ := live_of_running hp
  unfold ProcSys.waitScan
  split
  · next c hfind =>
    have hc : s.p_stat c = .szomb := by
      have hc := List.find?_some hfind
      simp only [Bool.and_eq_true, decide_eq_true_eq] at hc
      exact hc.2
    refine h.tidy (Tidy.of_goto (fun _ => Iff.rfl) (.inl rfl) rfl (fun _ _ h => h) rfl rfl rfl rfl ?_)
    rintro c' pid ⟨⟩
    exact hc
  · split
    · split
      · exact h.eintr w
      · refine h.tidy (Tidy.of_goto (fun q => ?_) (.inl ?_) rfl (fun _ _ h => h) rfl rfl rfl rfl nofun)
        · rcases eq_or_ne q p with rfl | hq
          · simp [goto, hlive.1]
          · simp [goto, update_of_ne hq]
        · exact update_of_ne (Ne.symm hp0) _ _
    · exact h.tidy (tidy_waitDone .echild)

/-- The child starts without a signal. -/
theorem Clean.newproc (h : Clean s) (hc : s.p_stat c = .null) (hs : s.newproc p c = some s') :
    Clean s' := by
  obtain ⟨pid, hpid, rfl⟩ := Option.map_eq_some_iff.mp hs
  obtain ⟨hpos, hused⟩ := nextPid_spec hpid
  -- process 0 is not the slot that is taken
  have hc0 : (0 : Slot) ≠ c := fun h0 => h.sched.1 (h0 ▸ hc)
  refine ⟨?_, fun q h0 hq => ?_, fun q hq => ?_, fun q hq => ?_, fun q hq hsent => ?_,
    fun q x n hq => ?_⟩
  · simpa [goto, update_of_ne hc0] using h.sched
  -- the child's number is a new one
  · rcases eq_or_ne q c with rfl | hqc
    · have hzero := not_used hused 0
      rw [h.sched.2.2] at hzero
      simp only [goto, update_self]
      omega
    · simp only [goto, update_of_ne hqc] at hq ⊢
      exact h.pos q h0 hq
  -- the child's slot is in use now
  · rcases eq_or_ne q c with rfl | hqc
    · simp [goto] at hq
    · simp only [goto, update_of_ne hqc] at hq ⊢
      exact h.free q hq
  · rcases eq_or_ne q c with rfl | hqc
    · exact h.sig q hc
    · simp only [goto, update_of_ne hqc] at hq ⊢
      exact h.sig q hq
  -- the child has no child to reap
  · -- The new process has what the free slot had.
    rcases eq_or_ne q c with rfl | hqc
    · exact h.sig q hc
    · simp only [goto, update_of_ne hqc] at hq hsent ⊢
      exact h.fresh q hq hsent
  · rcases eq_or_ne q c with rfl | hqc
    · simp [goto] at hq
    · simp only [goto, update_of_ne hqc] at hq
      exact h.reaping q x n hq

/-- What the second part of `exit` changes, whether or not the parent is found at once. -/
theorem exitDone_spec {b : ℕ} (hs : s.exitDone p b = some s') :
    (s'.p_pid = s.p_pid ∧ s'.p_ttyp = s.p_ttyp ∧ s'.p_sig = s.p_sig ∧ s'.sent = s.sent) ∧
      (s'.u_signal = s.u_signal ∧ s'.killed = s.killed ∧ s'.pc = update s.pc p .dead) ∧
      s'.p_stat p = .szomb ∧
      (∀ q, q ≠ p → s'.p_stat q = s.p_stat q ∨ (s.p_stat q = .swait ∧ s'.p_stat q = .srun)) ∧
      ∀ q, q ≠ p → s.p_ppid q ≠ s.p_pid p → s'.p_ppid q = s.p_ppid q := by
  -- only a parent that waits is woken up
  have hstat : ∀ (t : ProcSys) (r q : Slot), (t.leave p r).p_stat q = t.p_stat q ∨
      (t.p_stat q = .swait ∧ (t.leave p r).p_stat q = .srun) := by
    intro t r q
    simp only [leave, goto, handOver, wakeProc_wakeProc_stat]
    split
    · next hwait => exact .inr ⟨hwait.2.2, rfl⟩
    · exact .inl rfl
  have hstat' : ∀ (t : ProcSys) (r q : Slot), t.p_stat q = s.p_stat q →
      (t.leave p r).p_stat q = s.p_stat q ∨
        (s.p_stat q = .swait ∧ (t.leave p r).p_stat q = .srun) :=
    fun t r q ht => ht ▸ hstat t r q
  have hself : ∀ (t : ProcSys) (r : Slot), t.p_stat p = .szomb → (t.leave p r).p_stat p = .szomb := by
    intro t r ht
    rcases hstat t r p with hsame | ⟨hwait, -⟩
    · exact hsame.trans ht
    · rw [ht] at hwait
      cases hwait
  simp only [ProcSys.exitDone] at hs
  split at hs
  · next r hr =>
    obtain rfl := Option.some.inj hs
    refine ⟨⟨rfl, rfl, rfl, rfl⟩, ⟨rfl, rfl, rfl⟩, hself _ _ (update_self ..), fun q hq => ?_,
      fun q hq hchild => if_neg hchild⟩
    exact hstat' _ r q (update_of_ne hq _ _)
  · obtain ⟨r, -, rfl⟩ := Option.map_eq_some_iff.mp hs
    refine ⟨⟨rfl, rfl, rfl, rfl⟩, ⟨rfl, rfl, rfl⟩, hself _ _ (update_self ..), fun q hq => ?_,
      fun q hq hchild => ?_⟩
    · exact hstat' _ r q (update_of_ne hq _ _)
    · simp only [leave, goto, handOver, wakeProc, update_of_ne hq]
      exact if_neg hchild

/-- The end of `exit` is tidy. -/
theorem Clean.exitDone {b : ℕ} (h : Clean s) (hp : s.running p = true)
    (hs : s.exitDone p b = some s') : Clean s' := by
  obtain ⟨hp0, -, hlive⟩ := live_of_running hp
  have hppos := h.pos p hp0 hlive.1
  obtain ⟨⟨hpid, httyp, hsig, hsent⟩, ⟨-, -, hpc⟩, hzomb, hstat, hppid⟩ := exitDone_spec hs
  refine h.tidy (Tidy.of_goto (fun q => ?_) ?_ hpid (fun q hq hzero => ?_) httyp hsig hsent hpc nofun)
  · rcases eq_or_ne q p with rfl | hq
    · exact iff_of_false (by rw [hzomb]; nofun) hlive.1
    · rcases hstat q hq with hsame | ⟨hwait, hrun⟩
      · rw [hsame]
      · rw [hwait, hrun]
        exact iff_of_false nofun nofun
  · rcases hstat 0 (Ne.symm hp0) with hsame | ⟨-, hrun⟩
    · exact .inl hsame
    · exact .inr (.inl hrun)
  · have hqp : q ≠ p := fun hqp => hlive.1 (hqp ▸ hq)
    rw [hppid q hqp (by omega), hzero]

/-- The slot that is freed is cleaned. -/
theorem Clean.reap {pid : ℤ} (h : Clean s) (hpc : s.pc p = .reaping c pid) :
    Clean (s.reap p c pid) := by
  have hc0 : (0 : Slot) ≠ c := Ne.symm (h.reaping p c pid hpc)
  refine ⟨?_, fun q h0 hq => ?_, fun q hq => ?_, fun q hq => ?_, fun q hq hsent => ?_,
    fun q x n hq => ?_⟩
  · simpa [ProcSys.reap, waitDone, goto, update_of_ne hc0] using h.sched
  · rcases eq_or_ne q c with rfl | hqc
    · simp [ProcSys.reap, waitDone, goto] at hq
    · simp only [ProcSys.reap, waitDone, goto, update_of_ne hqc] at hq ⊢
      exact h.pos q h0 hq
  · rcases eq_or_ne q c with rfl | hqc
    · simp [ProcSys.reap, waitDone, goto]
    · simp only [ProcSys.reap, waitDone, goto, update_of_ne hqc] at hq ⊢
      exact h.free q hq
  · rcases eq_or_ne q c with rfl | hqc
    · simp [ProcSys.reap, waitDone, goto]
    · simp only [ProcSys.reap, waitDone, goto, update_of_ne hqc] at hq ⊢
      exact h.sig q hq
  · rcases eq_or_ne q c with rfl | hqc
    · simp [ProcSys.reap, waitDone, goto] at hq
    · simp only [ProcSys.reap, waitDone, goto, update_of_ne hqc] at hq hsent ⊢
      exact h.fresh q hq hsent
  · rcases eq_or_ne q p with rfl | hqp
    · simp [ProcSys.reap, waitDone, goto] at hq
    · simp only [ProcSys.reap, waitDone, goto, update_of_ne hqp] at hq
      exact h.reaping q x n hq

/-- A step of `kill` is in order if it selects a slot in use, the number is a signal, and a free slot
that it selects as well gets no signal but 0. -/
def KillOk (s : ProcSys) : ProcAct → Prop
  | .kill q a sig => (∃ p, killTarget q a s p = true) → sig < NSIG ∧
      (∃ p, killTarget q a s p = true ∧ s.p_stat p ≠ .null) ∧
      ((∃ p, killTarget q a s p = true ∧ s.p_stat p = .null) → toChar sig = 0)
  | _ => True

instance (s : ProcSys) : (a : ProcAct) → Decidable (s.KillOk a)
  | .kill q a sig => inferInstanceAs (Decidable ((∃ p, killTarget q a s p = true) → sig < NSIG ∧
      (∃ p, killTarget q a s p = true ∧ s.p_stat p ≠ .null) ∧
      ((∃ p, killTarget q a s p = true ∧ s.p_stat p = .null) → toChar sig = 0)))
  | .stat .. | .args .. | .other .. | .image .. | .fork .. | .rexit .. | .wait .. | .ssig ..
  | .exec .. | .setuid .. | .klopen .. | .tty .. | .epipe .. | .psig .. | .swapAlloc ..
  | .run .. => inferInstanceAs (Decidable True)

/-- A step that leaves signals, places and the table alone. -/
theorem Tidy.of_eq (hstat : s'.p_stat = s.p_stat) (hpid : s'.p_pid = s.p_pid)
    (hppid : s'.p_ppid = s.p_ppid) (httyp : ∀ p, s.p_stat p = .null → s'.p_ttyp p = s.p_ttyp p)
    (hsig : ∀ p, (s'.p_sig p = s.p_sig p ∧ s'.sent p = s.sent p) ∨ s'.p_sig p = 0)
    (hpc : s'.pc = s.pc) : Tidy s s' :=
  ⟨fun _ => by rw [hstat], .inl (by rw [hstat]), hpid, fun _ _ h => by rwa [hppid], httyp,
    fun p => (hsig p).imp id .inl, fun _ _ _ h => .inl (by rwa [hpc] at h)⟩

/-- The step lemma. -/
theorem Clean.step {a : ProcAct} (h : Clean s) (hok : s.KillOk a) (hs : s.step a = some s') :
    Clean s' := by
  cases a with
  | stat p st =>
    obtain ⟨hguard, rfl⟩ := of_guard hs
    simp only [Bool.and_eq_true, decide_eq_true_eq] at hguard
    obtain ⟨⟨⟨⟨⟨hlive, hpc⟩, hnull⟩, hzomb⟩, -⟩, -⟩ := hguard
    have hlive : s.p_stat p ≠ .null ∧ s.p_stat p ≠ .szomb := by
      constructor <;> intro hstat <;> simp [live, hstat] at hlive
    -- the new state is neither free nor a zombie
    have hq := quiet_stat hlive hpc ⟨hnull, hzomb⟩
    exact h.tidy ⟨hq.null, .inr (.inr (.inr ((hq.szomb 0).not.mpr h.sched.2.1))), rfl,
      fun _ _ h => h, fun _ _ => rfl, fun _ => .inl ⟨rfl, rfl⟩, fun _ _ _ h => .inl h⟩
  | args p v =>
    obtain ⟨-, rfl⟩ := of_guard hs
    exact h.tidy (Tidy.of_eq rfl rfl rfl (fun _ _ => rfl) (fun _ => .inl ⟨rfl, rfl⟩) rfl)
  | other p n v =>
    obtain ⟨-, rfl⟩ := of_guard hs
    exact h.tidy (Tidy.of_eq rfl rfl rfl (fun _ _ => rfl) (fun _ => .inl ⟨rfl, rfl⟩) rfl)
  | image b v =>
    obtain ⟨-, rfl⟩ := of_guard hs
    exact h.tidy (Tidy.of_eq rfl rfl rfl (fun _ _ => rfl) (fun _ => .inl ⟨rfl, rfl⟩) rfl)
  | fork p =>
    obtain ⟨-, hs⟩ := Option.ite_none_right_eq_some.mp hs
    unfold ProcSys.fork at hs
    split at hs
    · obtain rfl := Option.some.inj hs
      exact h
    · next c hc => exact h.newproc (freeSlot_spec hc) hs
  | rexit p w =>
    obtain ⟨-, rfl⟩ := of_guard hs
    exact h.tidy (Tidy.of_goto (fun _ => Iff.rfl) (.inl rfl) rfl (fun _ _ h => h) rfl rfl rfl rfl (by simp))
  | wait p w =>
    obtain ⟨hguard, rfl⟩ := of_guard hs
    exact h.waitScan (Bool.and_eq_true_iff.mp hguard).1 false w
  | kill p b sig =>
    obtain ⟨-, hs⟩ := of_guard hs
    rw [hs, kill_fst]
    refine h.tidy (tidy_psignals (steady_killTarget p b) (fun _ q hq hnull => ?_) h)
    -- only processes that exist get the signal
    exact (hok ⟨q, hq⟩).2.2 ⟨q, hq, hnull⟩
  | ssig p b v =>
    obtain ⟨-, rfl⟩ := of_guard hs
    unfold ProcSys.ssig
    split
    · exact h
    · refine h.tidy (Tidy.of_eq rfl rfl rfl (fun _ _ => rfl) (fun q => ?_) rfl)
      split
      · rcases eq_or_ne q p with rfl | hq
        · exact .inr (update_self q 0 s.p_sig)
        · exact .inl ⟨update_of_ne hq 0 s.p_sig, rfl⟩
      · exact .inl ⟨rfl, rfl⟩
  | exec p =>
    obtain ⟨-, rfl⟩ := of_guard hs
    exact h.tidy (Tidy.of_eq rfl rfl rfl (fun _ _ => rfl) (fun _ => .inl ⟨rfl, rfl⟩) rfl)
  | setuid p uid =>
    obtain ⟨-, rfl⟩ := of_guard hs
    exact h.tidy (Tidy.of_eq rfl rfl rfl (fun _ _ => rfl) (fun _ => .inl ⟨rfl, rfl⟩) rfl)
  | klopen p tp =>
    obtain ⟨hguard, rfl⟩ := of_guard hs
    have hp := (Bool.and_eq_true_iff.mp (Bool.and_eq_true_iff.mp hguard).1).1
    refine h.tidy (Tidy.of_eq rfl rfl rfl (fun q hq => ?_) (fun _ => .inl ⟨rfl, rfl⟩) rfl)
    -- a free entry is not the one that opens the terminal
    have hqp : q ≠ p := fun hqp => (live_of_running hp).2.2.1 (hqp ▸ hq)
    dsimp only
    split
    · exact update_of_ne hqp tp s.p_ttyp
    · rfl
  | tty tp quit =>
    obtain ⟨htp, hs⟩ := Option.ite_none_right_eq_some.mp hs
    obtain rfl := Option.some.inj hs
    refine h.tidy (tidy_psignals (steady_ttyp tp) (fun _ q hq hnull => ?_) h)
    -- a free entry has no terminal
    exact absurd ((h.free q hnull).2.2.symm.trans (of_decide_eq_true hq)).symm htp
  | epipe p =>
    obtain ⟨hguard, rfl⟩ := of_guard hs
    have hp := live_of_running (Bool.and_eq_true_iff.mp hguard).1
    rw [psignal_eq_post s p (by decide)]
    refine h.tidy (tidy_post (fun q hq hnull => ?_) h)
    exact absurd (of_decide_eq_true hq ▸ hnull) hp.2.2.1
  | psig p w =>
    obtain ⟨-, rfl⟩ := of_guard hs
    exact h.tidy (tidy_psig w)
  | swapAlloc p b =>
    obtain ⟨-, rfl⟩ := of_guard hs
    exact h.tidy (Tidy.of_goto (fun _ => Iff.rfl) (.inl rfl) rfl (fun _ _ h => h) rfl rfl rfl rfl (by simp))
  | run p w =>
    obtain ⟨hp, hs⟩ := Option.ite_none_right_eq_some.mp hs
    split at hs
    · obtain rfl := Option.some.inj hs
      exact h.tidy (Tidy.of_goto (fun _ => Iff.rfl) (.inl rfl) rfl (fun _ _ h => h) rfl rfl rfl rfl
        (by simp))
    · exact h.exitDone hp hs
    · obtain rfl := Option.some.inj hs
      unfold ProcSys.waitWoken
      split
      · exact h.eintr w
      · exact h.waitScan hp true w
    · next c pid hpc =>
      obtain rfl := Option.some.inj hs
      exact h.reap hpc
    · cases hs

end ProcSys

end UnixV6
