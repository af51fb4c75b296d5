import UnixV6.Ken.SigClean

/-!
# `SIGKIL`

Once posted, `SIGKIL` stays in `p_sig`, and its disposition is the default, until the process runs
`psig`. The way around it is a number that is no signal, which `psignal` lets through if it is
negative: it makes `issig` look outside `u_signal`, so a process that ignores all signals in `exit`
comes back to user mode with everything ignored; and it makes `psig` store 0 there, over `u_procp`
for one.
-/

open Function

namespace UnixV6

namespace ProcSys

variable {s s' : ProcSys} {p q c : Slot}

/-- Posted kill signals and the dispositions that go with them. -/
structure Held (s : ProcSys) : Prop where
  sig : ∀ p, s.killed p = true → s.p_sig p = SIGKIL ∧ s.p_stat p ≠ .null
  disp : ∀ p, s.p_stat p ≠ .null → s.exiting p = false → s.u_signal p SIGKIL = 0
  /-- `exit` ignores all signals. -/
  ignored : ∀ p, s.pc p = .closing → ∀ n, 0 ≤ n → n < NSIG → s.u_signal p n = 1

/-- What a step keeps that makes no process and frees no slot. -/
structure Keeps (s s' : ProcSys) : Prop where
  null : ∀ p, s'.p_stat p = .null ↔ s.p_stat p = .null
  sig : ∀ p, s'.killed p = true → (s.killed p = true ∧ s'.p_sig p = s.p_sig p) ∨
    (s'.p_sig p = SIGKIL ∧ s.p_stat p ≠ .null)
  disp : ∀ p, s'.exiting p = false → s.exiting p = false ∧
    (s.u_signal p SIGKIL = 0 → s'.u_signal p SIGKIL = 0)
  ignored : ∀ p, s'.pc p = .closing →
    (s.pc p = .closing ∧ ∀ n, 0 ≤ n → n < NSIG → s'.u_signal p n = s.u_signal p n) ∨
      ∀ n, 0 ≤ n → n < NSIG → s'.u_signal p n = 1

theorem Held.keeps (h : Held s) (hk : Keeps s s') : Held s' := by
  refine ⟨fun p hp => ?_, fun p hp hexit => ?_, fun p hp n hn hn' => ?_⟩
  · rw [Ne, hk.null]
    rcases hk.sig p hp with ⟨hold, hsame⟩ | hnew
    · rw [hsame]
      exact h.sig p hold
    · exact hnew
  · obtain ⟨hold, hdisp⟩ := hk.disp p hexit
    exact hdisp (h.disp p ((hk.null p).not.mp hp) hold)
  · rcases hk.ignored p hp with ⟨hold, hsame⟩ | hall
    · rw [hsame n hn hn']
      exact h.ignored p hold n hn hn'
    · exact hall n hn hn'

/-- A step that changes dispositions only, if any, and not in `exit`. -/
theorem Keeps.of_eq (hnull : ∀ p, s'.p_stat p = .null ↔ s.p_stat p = .null) (hpc : s'.pc = s.pc)
    (hsig : s'.killed = s.killed ∧ s'.p_sig = s.p_sig)
    (hdisp : ∀ p, s.u_signal p SIGKIL = 0 → s'.u_signal p SIGKIL = 0)
    (hclos : ∀ p, s.pc p = .closing → ∀ n, 0 ≤ n → n < NSIG →
      s'.u_signal p n = s.u_signal p n) : Keeps s s' :=
  ⟨hnull, fun p hp => .inl ⟨hsig.1 ▸ hp, by rw [hsig.2]⟩,
    fun p hp => ⟨by rwa [exiting, hpc] at hp, hdisp p⟩,
    fun p hp => .inl ⟨hpc ▸ hp, hclos p (hpc ▸ hp)⟩⟩

/-- One process goes on; it does not leave `exit`. -/
theorem Keeps.of_goto {k : ProcPc} (hnull : ∀ p, s'.p_stat p = .null ↔ s.p_stat p = .null)
    (hpc : s'.pc = update s.pc p k) (hsig : s'.killed = s.killed ∧ s'.p_sig = s.p_sig)
    (hdisp : s'.u_signal = s.u_signal) (hfrom : s'.exiting p = true ∨ s.exiting p = false)
    (hk : k ≠ .closing) : Keeps s s' := by
  refine ⟨hnull, fun q hq => .inl ⟨hsig.1 ▸ hq, by rw [hsig.2]⟩, fun q hq => ⟨?_, ?_⟩, fun q hq => ?_⟩
  · rcases eq_or_ne q p with rfl | hqp
    · rcases hfrom with hexit | hexit
      · rw [hexit] at hq
        cases hq
      · exact hexit
    · rwa [exiting, hpc, update_of_ne hqp] at hq
  · rw [hdisp]
    exact id
  · rw [hpc] at hq
    rcases eq_or_ne q p with rfl | hqp
    · rw [update_self] at hq
      exact absurd hq hk
    · rw [update_of_ne hqp] at hq
      exact .inl ⟨hq, fun n _ _ => by rw [hdisp]⟩

/-- A signal that is posted does not replace a kill. -/
theorem keeps_post (h : Held s) (sel : Slot → Bool) (sig : ℤ) : Keeps s (s.post sel sig) := by
  refine ⟨(quiet_post s sel sig).null, fun p hp => ?_, fun p hp => ⟨hp, id⟩,
    fun p hp => .inl ⟨hp, fun _ _ _ => rfl⟩⟩
  simp only [post, Bool.or_eq_true, Bool.and_eq_true, decide_eq_true_eq] at hp ⊢
  by_cases hkil : s.p_sig p = SIGKIL
  · rw [if_neg fun h => h.2 hkil]
    rcases hp with hold | ⟨-, ⟨-, hlive⟩, -⟩
    · exact .inl ⟨hold, rfl⟩
    · exact .inr ⟨hkil, hlive⟩
  · by_cases hsel : sel p = true
    · rcases hp with hold | ⟨-, ⟨hsig, hlive⟩, -⟩
      · exact absurd (h.sig p hold).1 hkil
      · rw [if_pos ⟨hsel, hkil⟩]
        exact .inr ⟨hsig, hlive⟩
    · rw [if_neg fun h => hsel h.1]
      rcases hp with hold | ⟨hsel', -⟩
      · exact .inl ⟨hold, rfl⟩
      · exact absurd hsel' hsel

/-- Signals to a group do not replace a kill. -/
theorem keeps_psignals (h : Held s) {sel : ProcSys → Slot → Bool} (hsteady : Steady sel) (sig : ℤ) :
    Keeps s (s.psignals sel sig) := by
  rw [psignals_eq hsteady]
  split
  · exact keeps_post h (sel s) sig
  · exact Keeps.of_eq (fun _ => Iff.rfl) rfl ⟨rfl, rfl⟩ (fun _ h => h) fun _ _ _ _ _ => rfl

/-- The signal of `p` is taken, those of the others stay. -/
theorem killed_taken (hq : (s.taken p).killed q = true) :
    s.killed q = true ∧ (s.taken p).p_sig q = s.p_sig q := by
  simp only [taken] at hq ⊢
  rcases eq_or_ne q p with rfl | hqp
  · simp at hq
  · rw [update_of_ne hqp] at hq ⊢
    exact ⟨hq, rfl⟩

/-- Whoever is in `exit` now was there before, `p` apart. -/
theorem closing_goto {t : ProcSys} {k : ProcPc} (hk : k ≠ .closing)
    (hq : (t.goto p k).pc q = .closing) : q ≠ p ∧ t.pc q = .closing := by
  simp only [goto] at hq
  rcases eq_or_ne q p with rfl | hqp
  · rw [update_self] at hq
    exact absurd hq hk
  · rw [update_of_ne hqp] at hq
    exact ⟨hqp, hq⟩

/-- The default action leads to `exit`, from wherever it is taken. -/
theorem keeps_dumping (s : ProcSys) (p : Slot) (w : ℤ) :
    Keeps s ((s.taken p).goto p (.dumping w)) := by
  refine ⟨fun _ => Iff.rfl, fun q hq => .inl (killed_taken hq), fun q hq => ⟨?_, id⟩,
    fun q hq => .inl ⟨(closing_goto (by simp) hq).2, fun _ _ _ => rfl⟩⟩
  rcases eq_or_ne q p with rfl | hqp
  · simp [exiting, goto, ProcPc.exits] at hq
  · simpa only [exiting, goto, taken, update_of_ne hqp] using hq

/-- `psig` outside of `exit`. -/
theorem keeps_psig (hexit : s.exiting p = false) (hsig : s.SigInTable p) (w : ℤ) :
    Keeps s (s.psig p w) := by
  have hfrom : ∀ (t : ProcSys) (q : Slot), t.pc = s.pc → (t.goto p .user).exiting q = false →
      s.exiting q = false := by
    intro t q ht hq
    rcases eq_or_ne q p with rfl | hqp
    · exact hexit
    · simpa only [exiting, goto, ht, update_of_ne hqp] using hq
  obtain h | h | ⟨n, -, h⟩ := psig_cases hsig w
  · rw [h]
    exact keeps_dumping s p w
  · rw [h]
    exact ⟨fun _ => Iff.rfl, fun q hq => .inl (killed_taken hq), fun q hq => ⟨hfrom _ q rfl hq, id⟩,
      fun q hq => .inl ⟨(closing_goto (by simp) hq).2, fun _ _ _ => rfl⟩⟩
  · rw [h]
    refine ⟨fun _ => Iff.rfl, fun q hq => .inl (killed_taken hq),
      fun q hq => ⟨hfrom _ q rfl hq, fun hz => ?_⟩, fun q hq => .inl ?_⟩
    · -- a disposition that is 0 stays 0
      rcases eq_or_ne q p with rfl | hqp
      · by_cases hn : SIGKIL = n <;> simp [goto, update, hn, hz]
      · simpa [goto, update_of_ne hqp] using hz
    · obtain ⟨hqp, hq⟩ := closing_goto (by simp) hq
      exact ⟨hq, fun n _ _ => by simp [goto, update_of_ne hqp]⟩

/-- The end of `wait` keeps the signals of the others. -/
theorem keeps_waitDone (hexit : s.exiting p = false) (r : WaitResult) : Keeps s (s.waitDone p r) :=
  Keeps.of_goto (fun _ => Iff.rfl) rfl ⟨rfl, rfl⟩ rfl (.inr hexit) (by simp)

/-- A `wait` that is interrupted acts on its signal. -/
theorem Held.eintr (h : Held s) (hexit : s.exiting p = false) (hsig : s.SigInTable p) (w : ℤ) :
    Held ((s.waitDone p .eintr).psig p w) := by
  have hsig : (s.waitDone p .eintr).SigInTable p := hsig
  refine (h.keeps (keeps_waitDone hexit .eintr)).keeps (keeps_psig ?_ hsig w)
  simp [exiting, waitDone, goto, ProcPc.exits]

/-- The search of `wait` keeps the signals. -/
theorem Held.waitScan (h : Held s) (hp : s.running p = true) (hexit : s.exiting p = false)
    (f : Bool) (hsig : f = true ∨ s.waitsFor p → s.issig p = true → s.SigInTable p) (w : ℤ) :
    Held (s.waitScan p f w) := by
  obtain ⟨-, -, hlive⟩ := live_of_running hp
  unfold ProcSys.waitScan
  split
  · next c hc =>
    exact h.keeps (Keeps.of_goto (fun _ => Iff.rfl) rfl ⟨rfl, rfl⟩ rfl (.inr hexit) nofun)
  · next hnone =>
    split
    · next hany =>
      split
      · next hissig => exact h.eintr hexit (hsig (waitsFor_of_scan hnone hany) hissig) w
      · refine h.keeps (Keeps.of_goto (fun q => ?_) rfl ⟨rfl, rfl⟩ rfl (.inr hexit) nofun)
        rcases eq_or_ne q p with rfl | hq
        · simp [goto, hlive.1]
        · simp [goto, update_of_ne hq]
    · exact h.keeps (keeps_waitDone hexit .echild)

/-- The child has no signal of its parent. -/
theorem Held.newproc (h : Held s) (hp : s.running p = true) (hpc : s.pc p = .user)
    (hs : s.newproc p c = some s') : Held s' := by
  obtain ⟨pid, -, rfl⟩ := Option.map_eq_some_iff.mp hs
  obtain ⟨-, -, hlive⟩ := live_of_running hp
  refine ⟨fun q hq => ?_, fun q hq hexit => ?_, fun q hq n hn hn' => ?_⟩
  · rcases eq_or_ne q c with rfl | hqc
    · simp [goto] at hq
    · simp only [goto, update_of_ne hqc] at hq ⊢
      exact h.sig q hq
  · rcases eq_or_ne q c with rfl | hqc
    · -- The dispositions are the parent's.
      simp only [goto, update_self]
      exact h.disp p hlive.1 (by simp [exiting, hpc, ProcPc.exits])
    · simp only [goto, exiting, update_of_ne hqc] at hq hexit ⊢
      exact h.disp q hq hexit
  · rcases eq_or_ne q c with rfl | hqc
    · simp [goto] at hq
    · simp only [goto, update_of_ne hqc] at hq ⊢
      exact h.ignored q hq n hn hn'

theorem keeps_exit (s : ProcSys) (p : Slot) (w : ℤ) : Keeps s (s.exit p w) := by
  refine ⟨fun _ => Iff.rfl, fun q hq => .inl ⟨hq, rfl⟩, fun q hq => ?_, fun q hq => ?_⟩
  · rcases eq_or_ne q p with rfl | hqp
    · simp [exiting, ProcSys.exit, goto, ProcPc.exits] at hq
    · simp only [exiting, ProcSys.exit, goto, update_of_ne hqp] at hq ⊢
      exact ⟨hq, id⟩
  · rcases eq_or_ne q p with rfl | hqp
    · refine .inr fun n hn hn' => ?_
      simp only [ProcSys.exit, goto, update_self]
      exact if_pos ⟨hn, hn'⟩
    · simp only [ProcSys.exit, goto, update_of_ne hqp] at hq ⊢
      exact .inl ⟨hq, fun _ _ _ => trivial⟩

/-- A child that is reaped has no signal any more. -/
theorem Held.reap {pid : ℤ} (h : Held s) (hexit : s.exiting p = false) :
    Held (s.reap p c pid) := by
  refine ⟨fun q hq => ?_, fun q hq hq' => ?_, fun q hq n hn hn' => ?_⟩
  · rcases eq_or_ne q c with rfl | hqc
    · simp [ProcSys.reap, waitDone, goto] at hq
    · simp only [ProcSys.reap, waitDone, goto, update_of_ne hqc] at hq ⊢
      exact h.sig q hq
  · rcases eq_or_ne q c with rfl | hqc
    · simp [ProcSys.reap, waitDone, goto] at hq
    simp only [ProcSys.reap, waitDone, goto, update_of_ne hqc] at hq ⊢
    rcases eq_or_ne q p with rfl | hqp
    · exact h.disp q hq hexit
    · simp only [exiting, ProcSys.reap, waitDone, goto, update_of_ne hqp] at hq'
      exact h.disp q hq hq'
  · rcases eq_or_ne q p with rfl | hqp
    · simp [ProcSys.reap, waitDone, goto] at hq
    · simp only [ProcSys.reap, waitDone, goto, update_of_ne hqp] at hq ⊢
      exact h.ignored q hq n hn hn'

/-- `ssig` clears `p_sig` only for the number whose disposition it changes, which is not `SIGKIL`. -/
theorem Held.ssig (h : Held s) (hpc : s.pc p = .user) (b v : ℤ) : Held (s.ssig p b v) := by
  unfold ProcSys.ssig
  split
  · exact h
  · next hb =>
    simp only [not_or] at hb
    refine h.keeps ⟨fun _ => Iff.rfl, fun q hq => ?_, fun q hq => ⟨hq, fun hz => ?_⟩, fun q hq => ?_⟩
    · refine .inl ⟨hq, ?_⟩
      dsimp only
      split
      · next hsig =>
        rcases eq_or_ne q p with rfl | hqp
        · exact absurd ((h.sig q hq).1.symm.trans hsig).symm hb.2.2
        · exact update_of_ne hqp 0 s.p_sig
      · rfl
    · dsimp only
      rcases eq_or_ne q p with rfl | hqp
      · rw [update_self, update_of_ne (Ne.symm hb.2.2)]
        exact hz
      · rwa [update_of_ne hqp]
    · have hqp : q ≠ p := by
        rintro rfl
        rw [hpc] at hq
        cases hq
      exact .inl ⟨hq, fun n _ _ => by simp only [update_of_ne hqp]⟩

/-- `exec` resets dispositions. -/
theorem keeps_exec (hpc : s.pc p = .user) : Keeps s (s.exec p) := by
  refine Keeps.of_eq (fun _ => Iff.rfl) rfl ⟨rfl, rfl⟩ (fun q hq => ?_) fun q hq n _ _ => ?_
  · rcases eq_or_ne q p with rfl | hqp
    · simp only [ProcSys.exec, update_self]
      split
      · rfl
      · exact hq
    · simpa only [ProcSys.exec, update_of_ne hqp] using hq
  · have hqp : q ≠ p := by
      rintro rfl
      rw [hpc] at hq
      cases hq
    simp only [ProcSys.exec, update_of_ne hqp]

/-- The end of `exit`: the process is a zombie, and its dispositions matter no more. -/
theorem Held.exitDone {a : ℕ} (h : Held s) (hlive : s.p_stat p ≠ .null ∧ s.p_stat p ≠ .szomb)
    (hs : s.exitDone p a = some s') : Held s' := by
  obtain ⟨⟨-, -, hsig, -⟩, ⟨hdisp, hkilled, hpc⟩, hzomb, hstat, -⟩ := exitDone_spec hs
  refine h.keeps (Keeps.of_goto (fun q => ?_) hpc ⟨hkilled, hsig⟩ hdisp (.inl ?_) (by simp))
  · rcases eq_or_ne q p with rfl | hq
    · exact iff_of_false (by rw [hzomb]; simp) hlive.1
    · rcases hstat q hq with hsame | ⟨hwait, hrun⟩
      · rw [hsame]
      · rw [hwait, hrun]
        exact iff_of_false (by simp) (by simp)
  · simp [exiting, hpc, ProcPc.exits]

/-- The rest of a `wait`, with `psig` if a signal has cut it short. -/
theorem Held.waitWoken (h : Held s) (hp : s.running p = true) (hpc : s.pc p = .waitSleep)
    (hok : s.issig p = true → s.SigInTable p) (w : ℤ) : Held (s.waitWoken p w) := by
  have hexit : s.exiting p = false := by
    rw [exiting, hpc]
    rfl
  unfold ProcSys.waitWoken
  split
  · next hissig => exact h.eintr hexit (hok hissig) w
  · exact h.waitScan hp hexit true (fun _ => hok) w

/-! ## The results -/

/-- The step lemma. -/
theorem Held.step {a : ProcAct} (h : Held s) (hown : Own s) (hok : s.SigOk a)
    (hs : s.step a = some s') : Held s' := by
  cases a with
  | stat p st =>
    obtain ⟨hguard, rfl⟩ := of_guard hs
    simp only [Bool.and_eq_true, decide_eq_true_eq] at hguard
    obtain ⟨⟨⟨⟨⟨hlive, -⟩, hnull⟩, -⟩, -⟩, -⟩ := hguard
    have hlive : s.p_stat p ≠ .null := by
      intro hstat
      simp [live, hstat] at hlive
    refine h.keeps (Keeps.of_eq (fun q => ?_) rfl ⟨rfl, rfl⟩ (fun _ h => h) fun _ _ _ _ _ => rfl)
    rcases eq_or_ne q p with rfl | hq
    · simp [hlive, hnull]
    · simp [update_of_ne hq]
  | args p v =>
    obtain ⟨-, rfl⟩ := of_guard hs
    exact h.keeps (Keeps.of_eq (fun _ => Iff.rfl) rfl ⟨rfl, rfl⟩ (fun _ h => h) fun _ _ _ _ _ => rfl)
  | other p n v =>
    obtain ⟨hn, rfl⟩ := of_guard hs
    -- The table itself is not written.
    have hkept : ∀ q m, 0 ≤ m → m < NSIG →
        update s.u_signal p (update (s.u_signal p) n v) q m = s.u_signal q m := by
      intro q m hm hm'
      rcases eq_or_ne q p with rfl | hq
      · rw [update_self, update_of_ne]
        omega
      · rw [update_of_ne hq]
    refine h.keeps (Keeps.of_eq (fun _ => Iff.rfl) rfl ⟨rfl, rfl⟩ (fun q hq => ?_)
      fun q _ m hm hm' => hkept q m hm hm')
    exact (hkept q SIGKIL (by decide) (by decide)).trans hq
  | image b v =>
    obtain ⟨-, rfl⟩ := of_guard hs
    exact h.keeps (Keeps.of_eq (fun _ => Iff.rfl) rfl ⟨rfl, rfl⟩ (fun _ h => h) fun _ _ _ _ _ => rfl)
  | fork p =>
    obtain ⟨hguard, hs⟩ := Option.ite_none_right_eq_some.mp hs
    obtain ⟨hp, hpc⟩ := Bool.and_eq_true_iff.mp hguard
    unfold ProcSys.fork at hs
    split at hs
    · obtain rfl := Option.some.inj hs
      exact h
    · exact h.newproc (hown.running ▸ hp) (of_decide_eq_true hpc) hs
  | rexit p w =>
    obtain ⟨-, rfl⟩ := of_guard hs
    exact h.keeps (keeps_exit s p w)
  | wait p w =>
    obtain ⟨hguard, rfl⟩ := of_guard hs
    obtain ⟨hp, hpc⟩ := Bool.and_eq_true_iff.mp hguard
    have hpc : s.pc p = .user := of_decide_eq_true hpc
    exact h.waitScan hp (by rw [exiting, hpc]; rfl) false
      (fun hwaits => hok (hwaits.resolve_left Bool.false_ne_true)) w
  | kill p b sig =>
    obtain ⟨-, hs⟩ := of_guard hs
    rw [hs, kill_fst]
    exact h.keeps (keeps_psignals h (steady_killTarget p b) sig)
  | ssig p b v =>
    obtain ⟨hguard, rfl⟩ := of_guard hs
    have hpc : s.pc p = .user := of_decide_eq_true (Bool.and_eq_true_iff.mp hguard).2
    exact h.ssig hpc b v
  | exec p =>
    obtain ⟨hguard, rfl⟩ := of_guard hs
    have hpc : s.pc p = .user := of_decide_eq_true (Bool.and_eq_true_iff.mp hguard).2
    exact h.keeps (keeps_exec hpc)
  | setuid p uid =>
    obtain ⟨-, rfl⟩ := of_guard hs
    exact h.keeps (Keeps.of_eq (fun _ => Iff.rfl) rfl ⟨rfl, rfl⟩ (fun _ h => h) fun _ _ _ _ _ => rfl)
  | klopen p tp =>
    obtain ⟨-, rfl⟩ := of_guard hs
    exact h.keeps (Keeps.of_eq (fun _ => Iff.rfl) rfl ⟨rfl, rfl⟩ (fun _ h => h) fun _ _ _ _ _ => rfl)
  | tty tp quit =>
    obtain ⟨-, hs⟩ := Option.ite_none_right_eq_some.mp hs
    obtain rfl := Option.some.inj hs
    exact h.keeps (keeps_psignals h (steady_ttyp tp) _)
  | epipe p =>
    obtain ⟨-, rfl⟩ := of_guard hs
    rw [psignal_eq_post s p (by decide)]
    exact h.keeps (keeps_post h _ SIGPIPE)
  | psig p w =>
    obtain ⟨hguard, rfl⟩ := of_guard hs
    simp only [Bool.and_eq_true, Bool.or_eq_true, decide_eq_true_eq] at hguard
    obtain ⟨⟨hp, huser | hclosing⟩, hissig⟩ := hguard
    · exact h.keeps (keeps_psig (by rw [exiting, huser]; rfl) hok w)
    · rcases hok with hn | hdfl
      · -- In `exit` every signal is ignored, so `issig` does not find one.
        have hone := h.ignored p hclosing _ hn.1 hn.2
        simp [issig, sigIgn_of_signal hn, hone] at hissig
      · rw [psig_of_dfl hdfl]
        exact h.keeps (keeps_dumping s p w)
  | swapAlloc p b =>
    obtain ⟨hguard, rfl⟩ := of_guard hs
    refine h.keeps (Keeps.of_goto (fun _ => Iff.rfl) rfl ⟨rfl, rfl⟩ rfl (.inl ?_) (by simp))
    simp [exiting, goto, ProcPc.exits]
  | run p w =>
    obtain ⟨hp, hs⟩ := Option.ite_none_right_eq_some.mp hs
    obtain ⟨-, -, hlive⟩ := live_of_running hp
    split at hs
    · obtain rfl := Option.some.inj hs
      exact h.keeps (keeps_exit s p _)
    · exact h.exitDone hlive hs
    · next hpc =>
      obtain rfl := Option.some.inj hs
      exact h.waitWoken hp hpc (hok hpc) w
    · next c pid hpc =>
      obtain rfl := Option.some.inj hs
      refine h.reap ?_
      rw [exiting, hpc]
      rfl
    · cases hs

end ProcSys

end UnixV6
