import UnixV6.Ken.SlpCustody

/-!
# Who owns core and swap space

`Exclusive s` says of a kernel state that every core page and every swap block that the maps got at
boot is free or has exactly one owner. The owners are the process images, the parent of a `newproc`
in progress and zombies included, and the ranges that a routine asleep in the middle of its work
has got from a map. The one overlap is a child entry of `newproc` that still denotes its parent's
core.

`exclusive_of_sparesWaiting` proves it for every run in which `sched` never chooses such a child,
asleep on `&swapmap`, to be swapped out. Nothing in `sched` prevents that choice: the child is
`SLOAD` and not yet `SLOCK`. When it is made, `xswap(rp, 1, a)` frees core that still belongs to the
`SIDL` parent, and `not_exclusive_of_reachable` is a run in which another process is then read into
it.
-/

open Function Relation

namespace UnixV6

/-- Every page and block handed to the maps at boot is free or has exactly one owner. Process 0 is
the kernel itself, which got nothing from the maps. -/
structure Exclusive (s : Sys) : Prop where
  core : Ownership s.table.coreOwn (freeUnits s.coremap) corePool
  swap : Ownership s.table.swapOwn (freeUnits s.swapmap) swapPool
  /-- A child in `newproc` that owns no core of its own denotes the core of its `SIDL` parent. -/
  copying : ∀ p rip a, s.table.errand p = .copy rip a →
    (s.proc rip).p_stat = .sidl ∧ s.table.InCore rip ∧ (s.proc p).p_addr = (s.proc rip).p_addr

/-- No two processes have core in common. -/
theorem Exclusive.core_disjoint {s : Sys} (h : Exclusive s) {p q : Slot} (hpq : p ≠ q)
    (hp : s.table.InCore p) (hq : s.table.InCore q) :
    Disjoint (span (s.proc p).p_addr (s.proc p).p_size)
      (span (s.proc q).p_addr (s.proc q).p_size) := by
  have hown : ∀ {r}, s.table.InCore r → s.table.coreOwn (.image r) =
      span (s.proc r).p_addr (s.proc r).p_size :=
    fun hr => owned_eq fun _ _ => and_iff_right hr
  have hne : Owner.image p ≠ Owner.image q := by simpa using hpq
  have hdisj : Disjoint (s.table.coreOwn (.image p)) (s.table.coreOwn (.image q)) :=
    h.core.disjoint hne
  rwa [hown hp, hown hq] at hdisj

theorem Custody.exclusive {s : Sys} (h : Custody s.table) : Exclusive s where
  core := h.core
  swap := h.swap
  copying p rip a hp := by
    obtain ⟨-, hidle, hload, haddr⟩ := h.control.copying p rip a hp
    have hstat : (s.proc rip).p_stat = .sidl := by
      have hk : (s.proc rip).p_stat.kind = .idle := hidle
      revert hk
      cases (s.proc rip).p_stat <;> simp
    -- an idle parent has nothing in hand and is not process 0
    have hfree : (s.table.errand rip).isCopy = false := by
      by_contra hcp
      obtain ⟨r, b, he⟩ := Errand.exists_of_isCopy (Bool.eq_true_of_not_eq_false hcp)
      exact absurd ((h.control.busy rip (by rw [he]; simp)).symm.trans hidle) (by decide)
    have h0 : rip ≠ s.table.sys := by
      rintro rfl
      exact absurd (h.control.system.1.symm.trans hidle) (by decide)
    exact ⟨hstat, ⟨h0, Or.inr hidle, hfree, Or.inl hload⟩, haddr.symm⟩

/-! ## The start -/

/-- After `main` has made process 1 everything is in order. -/
theorem main_spec {s : Sys} (h : main = some s) : s.Ok ∧ Custody s.table := by
  unfold main at h
  obtain ⟨coremap, hcm, h⟩ := Option.bind_eq_some_iff.mp h
  obtain ⟨swapmap, hsm, h⟩ := Option.bind_eq_some_iff.mp h
  obtain ⟨hcore, -, hcfree⟩ := mfree_replicate (by decide) hcm
  obtain ⟨hswap, -, hsfree⟩ := mfree_replicate (by decide) hsm
  obtain ⟨s₀, hs₀, h⟩ : ∃ s₀, s₀ = _ ∧ newproc 0 s₀ = some s := ⟨_, rfl, h⟩
  -- only process 0 exists
  have hproc : ∀ p, p ≠ 0 → s₀.proc p = {} := by
    intro p hp
    simp [hs₀, hp]
  have hctx : ∀ p, (s₀.ctx p).errand = .none := by
    intro p
    rw [hs₀]
    by_cases hp : p = 0 <;> simp [hp, Ctx.errand]
  have hok : s₀.Ok := by
    rw [hs₀]
    refine ⟨hcore, hswap, fun p => ?_, fun p => ?_⟩
    · by_cases hp : p = 0 <;> simp [hp]
    · by_cases hp : p = 0 <;> simp [hp, Ctx.isSched]
  have hkind : ∀ p, p ≠ 0 → (s₀.table.img p).kind = .free := by
    intro p hp
    rw [Sys.table_img, hproc p hp]
    rfl
  have hmem : ∀ p, (s₀.table.img p).kind ≠ .free → p = 0 := fun p => not_imp_comm.mp (hkind p)
  have hzero : (s₀.proc 0).p_stat = .srun ∧ (s₀.proc 0).p_flag.ssys = true ∧
      (s₀.proc 0).p_flag.sload = true ∧ (s₀.proc 0).p_size = PSIZE := by
    simp [hs₀]
  have hcontrol : Control s₀.table := by
    have hnone : ∀ p, s₀.table.errand p = .none := hctx
    refine ⟨fun p hp => ?_, fun p q hp hq _ => (hmem p hp).trans (hmem q hq).symm, ?_, ?_, ?_, ?_,
      ?_, ?_, ?_, ?_, fun p hp hload => ?_, ?_⟩
    · rw [hmem p hp]
      exact hzero.2.2.2
    · exact ⟨by simp [Proc.image, hzero.1], hzero.2.1, hzero.2.2.1⟩
    · exact fun p => Or.inl (hnone p)
    · exact fun p hp => absurd (hnone p) hp
    · exact fun p rip a hp => absurd ((hnone p).symm.trans hp) (by simp)
    · exact fun p q rip a a' hp => absurd ((hnone p).symm.trans hp) (by simp)
    · exact fun p rip a hp => absurd ((hnone p).symm.trans hp) (by simp)
    · exact fun p1 a hp => absurd ((hnone _).symm.trans hp) (by simp)
    · exact fun rp a hp => absurd ((hnone _).symm.trans hp) (by simp)
    · rw [hmem p (by rw [hp]; decide)] at hload
      exact absurd (hload.symm.trans hzero.2.2.1) (by decide)
    · exact fun q c f hp => absurd ((hnone q).symm.trans hp) (by simp)
  -- so nothing is owned yet
  have hcustody : Custody s₀.table := by
    have hcore₀ : s₀.table.core = corePool := by
      rw [hs₀]
      exact hcfree
    have hswap₀ : s₀.table.swap = swapPool := by
      rw [hs₀]
      exact hsfree
    refine ⟨hcontrol, ?_, ?_⟩
    · rw [hcore₀]
      refine Ownership.of_empty fun o => owned_empty fun a n hown => ?_
      cases o with
      | image p =>
        obtain ⟨⟨hp, hk, -⟩, -⟩ := hown
        rw [hkind p hp] at hk
        simp at hk
      | transit p =>
        obtain ⟨p1, hp, -⟩ := hown
        exact absurd ((hctx p).symm.trans hp) (by simp)
    · rw [hswap₀]
      refine Ownership.of_empty fun o => owned_empty fun a n hown => ?_
      cases o with
      | image p =>
        have hkind₀ : (s₀.table.img 0).kind = .live := hcontrol.system.1
        rcases hown with ⟨⟨hk, hload, -⟩, -⟩ | ⟨hk, -⟩
        · rw [hmem p (by rw [hk]; decide)] at hload
          exact absurd (hload.symm.trans hzero.2.2.1) (by decide)
        · rw [hmem p (by rw [hk]; decide)] at hk
          exact absurd (hk.symm.trans hkind₀) (by decide)
      | transit p =>
        rcases hown with ⟨hp, -⟩ | ⟨_, hp, -⟩ | ⟨_, hp, -⟩ <;>
          exact absurd ((hctx p).symm.trans hp) (by simp)
  have hcore : ∀ coremap', malloc s₀.coremap (s₀.proc 0).p_size ≠ some (0, coremap') := by
    intro coremap' hm
    rw [hzero.2.2.2] at hm
    have hfree : freeUnits s₀.coremap = corePool := by
      rw [hs₀]
      exact hcfree
    obtain ⟨-, -, ⟨-, -, hno⟩ | ⟨⟨hle, -⟩, -⟩⟩ := malloc_freeUnits hok.coremap (by decide) hm
    · -- the whole of core is free
      refine hno USPACE fun x hx => ?_
      rw [hfree]
      exact ⟨hx.1, lt_of_lt_of_le hx.2 (by decide)⟩
    · have hmem : 0 ∈ freeUnits s₀.coremap := hle ⟨le_rfl, by decide⟩
      rw [hfree] at hmem
      exact zero_notMem_corePool hmem
  obtain ⟨hs, hrun⟩ := newproc_spec hok hcustody hzero.1 hzero.2.2.1 (hctx 0) (Or.inr hcore) h
  exact ⟨hs, hcustody.run hrun⟩

/-! ## Runs -/

/-- The condition on a step: if `sched` gets to run, it does not set about swapping out a child
that sleeps on `&swapmap` in `newproc`. -/
def SparesWaitingChild (s : Sys) (act : Act) : Prop :=
  act = .resume 0 → SparesWaiting (dispatch 0 s)

/-- In every run in which `sched` swaps out no child that waits for swap space in `newproc`, every
core page and every swap block has exactly one owner or is free, in every state. -/
theorem exclusive_of_sparesWaitingChild {s₀ s : Sys} (h₀ : main = some s₀)
    (h : Reachable step SparesWaitingChild s₀ s) : Exclusive s := by
  obtain ⟨hs₀, hc₀⟩ := main_spec h₀
  have hrun := h.refine Sys.Ok Custody Sys.table Next hs₀ hc₀
    (fun _ _ hI hn => hI.next hn) fun s act s' hs hc hok hstep => step_spec hs hc hok hstep
  exact hrun.2.exclusive

theorem sparesWaiting_of_none {s : Sys} (h : (toLoop s).bind swapsOut = none) : SparesWaiting s := by
  intro s₁ h₁ rp hrp
  rw [h₁, Option.bind_some, hrp] at h
  simp at h

/-- Process 1 forks, and `sched` finds nothing to do. -/
theorem exclusive_of_sparesWaitingChild_fork :
    ∃ s₀ s, main = some s₀ ∧ runSteps step [.fork 1, .resume 0] s₀ = some s ∧ Exclusive s := by
  have hrun : (main.bind fun s₀ => (step s₀ (.fork 1)).bind fun s₁ =>
      if (toLoop (dispatch 0 s₁)).bind swapsOut = none then step s₁ (.resume 0) else none).isSome =
      true := by
    decide +kernel
  obtain ⟨s, h⟩ := Option.isSome_iff_exists.mp hrun
  obtain ⟨s₀, h₀, h⟩ := Option.bind_eq_some_iff.mp h
  obtain ⟨s₁, h₁, h⟩ := Option.bind_eq_some_iff.mp h
  split at h
  · next hnone =>
    refine ⟨s₀, s, h₀, by simp [runSteps, h₁, h], exclusive_of_sparesWaitingChild h₀ ?_⟩
    refine (Reachable.refl.tail ?_ h₁).tail ?_ h
    · simp [SparesWaitingChild]
    · exact fun _ => sparesWaiting_of_none hnone
  · simp at h

/-! ## The child that is swapped out -/

/-- Processes 1 and 3 to 8 fill the core and 9 to 14 the swap space, so that the child that process
1 then makes in entry 2 has to wait for swap space. Process 3 exits, process 9 is read into its
core, and there is swap space again: `sched` writes the child out and frees the core it denotes,
and reads process 10 into it. -/
def swapOutWaitingChild : List Act :=
  [.resume 0, .fork 1, .exit 2, .resume 2] ++ List.replicate 6 (.fork 1) ++
    [9, 10, 11, 12, 13, 14].flatMap (fun p => [.fork 1, .iodone, .resume p]) ++
    [.wait 1, .resume 1, .fork 1, .clock, .clock, .clock, .exit 3, .resume 3, .resume 0, .iodone,
      .resume 0, .iodone, .resume 0, .iodone, .resume 0]

/-- Process 1 is still waiting for its child in core, where process 10 is now. -/
def parentLostCore (s : Sys) : Bool :=
  (s.proc 1).p_stat = .sidl && (s.proc 1).p_flag.sload && s.ctx 1 = .user &&
    (s.proc 10).p_stat = .srun && (s.proc 10).p_flag.sload && s.ctx 10 = .user &&
    (s.proc 1).p_addr = (s.proc 10).p_addr && 0 < (s.proc 1).p_size && 0 < (s.proc 10).p_size

theorem swapOutWaitingChild_run :
    (main.bind (runSteps step swapOutWaitingChild)).any parentLostCore = true := by
  decide +kernel

/-- Two processes can own the same core. -/
theorem not_exclusive_of_reachable :
    ¬ ∀ s₀ s, main = some s₀ → Reachable step (fun _ _ => True) s₀ s → Exclusive s := by
  intro hall
  obtain ⟨s, hs, hlost⟩ := (Option.any_eq_true _ _).mp swapOutWaitingChild_run
  obtain ⟨s₀, h₀, hrun⟩ := Option.bind_eq_some_iff.mp hs
  have hex := hall s₀ s h₀ (Reachable.refl.of_runSteps hrun)
  simp only [parentLostCore, Bool.and_eq_true, decide_eq_true_eq] at hlost
  obtain ⟨⟨⟨⟨⟨⟨⟨⟨hst, hload⟩, hctx⟩, hst'⟩, hload'⟩, hctx'⟩, haddr⟩, hsize⟩, hsize'⟩ := hlost
  have hin : s.table.InCore 1 :=
    ⟨by simp, Or.inr (by simp [Proc.image, hst]), by simp [hctx, Ctx.errand, Errand.isCopy],
      Or.inl hload⟩
  have hin' : s.table.InCore 10 :=
    ⟨by simp, Or.inl (by simp [Proc.image, hst']), by simp [hctx', Ctx.errand, Errand.isCopy],
      Or.inl hload'⟩
  have hdisj := hex.core_disjoint (by decide) hin hin'
  rw [haddr] at hdisj
  exact Set.disjoint_left.mp hdisj ⟨le_rfl, by omega⟩ ⟨le_rfl, by omega⟩

end UnixV6
