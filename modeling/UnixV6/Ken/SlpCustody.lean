import UnixV6.Ken.Custody

/-!
# The swapping routines as transitions

Each routine of `Ken.Slp` either leaves the custody of core and swap space alone or makes the
transitions of `Next` that belong to it. The way there is one lemma for each routine that says what
the routine does to `Sys.table`; sleeping and waking up do nothing to it.
-/

open Function Relation

namespace UnixV6

/-! ## The table of a kernel state -/

/-- What `p_stat` says about an entry. -/
def PStat.kind : PStat → Kind
  | .null => .free
  | .sidl => .idle
  | .szomb => .zombie
  | .ssleep | .swait | .srun | .sstop => .live

@[simp] theorem PStat.kind_null : PStat.null.kind = .free := rfl
@[simp] theorem PStat.kind_ssleep : PStat.ssleep.kind = .live := rfl
@[simp] theorem PStat.kind_swait : PStat.swait.kind = .live := rfl
@[simp] theorem PStat.kind_srun : PStat.srun.kind = .live := rfl
@[simp] theorem PStat.kind_sstop : PStat.sstop.kind = .live := rfl
@[simp] theorem PStat.kind_sidl : PStat.sidl.kind = .idle := rfl
@[simp] theorem PStat.kind_szomb : PStat.szomb.kind = .zombie := rfl

/-- The process is in `sleep`. -/
def PStat.asleep : PStat → Bool
  | .ssleep | .swait => true
  | _ => false

theorem PStat.kind_of_asleep {st : PStat} (h : st.asleep = true) : st.kind = .live := by
  cases st <;> simp_all [asleep]

/-- What an entry says about its image. -/
def Proc.image (r : Proc) : Image where
  kind := r.p_stat.kind
  sload := r.p_flag.sload
  slock := r.p_flag.slock
  ssys := r.p_flag.ssys
  addr := r.p_addr
  size := r.p_size
  pid := r.p_pid
  ppid := r.p_ppid

/-- The work on images that stands on a kernel stack. -/
def Ctx.errand : Ctx → Errand Slot
  | .waitRead c f => .reap c f
  | .exitWrite a => .bury a
  | .newprocWait rip => .copy rip none
  | .newprocSwap rip a2 _ => .copy rip (some a2)
  | .schedIn p1 a _ => .swapIn p1 a
  | .schedOut rp a _ => .swapOut rp a
  | .user | .waitSleep | .sched => .none

/-- A context that holds a copy for a child is that of `newproc` waiting. -/
theorem Ctx.eq_newprocWait {k : Ctx} {rip : Slot} (h : k.errand = .copy rip none) :
    k = .newprocWait rip := by
  cases k <;> simp_all [errand]

/-- The kernel stack is in `sched`. -/
def Ctx.isSched : Ctx → Bool
  | .sched | .schedIn _ _ _ | .schedOut _ _ _ => true
  | _ => false

namespace Sys

/-- The custody of core and swap space in a kernel state. -/
def table (s : Sys) : Table Slot where
  sys := 0
  img := Proc.image ∘ s.proc
  errand := Ctx.errand ∘ s.ctx
  core := freeUnits s.coremap
  swap := freeUnits s.swapmap

/-- What the routines rely on besides custody. -/
structure Ok (s : Sys) : Prop where
  coremap : MapOk s.coremap
  swapmap : MapOk s.swapmap
  /-- A wait channel is set only while its process sleeps. -/
  sleepers : ∀ p, (s.proc p).p_wchan ≠ none → (s.proc p).p_stat.asleep = true
  /-- Process 0 runs `sched`, and nobody else does. -/
  sched : ∀ p, (s.ctx p).isSched = true ↔ p = 0

theorem setCtx_self (s : Sys) (p : Slot) : s.setCtx p (s.ctx p) = s := by
  rw [setCtx, update_eq_self]

/-- Process 0 is the one that swaps. -/
@[simp]
theorem table_sys (s : Sys) : s.table.sys = 0 := rfl

@[simp]
theorem table_img (s : Sys) (p : Slot) : s.table.img p = (s.proc p).image := rfl

@[simp]
theorem table_errand (s : Sys) (p : Slot) : s.table.errand p = (s.ctx p).errand := rfl

/-- A change of a process changes its image in the table. -/
@[simp]
theorem table_setProc (s : Sys) (p : Slot) (f : Proc → Proc) :
    (s.setProc p f).table =
      { s.table with img := update s.table.img p (f (s.proc p)).image } := by
  simp [table, setProc, comp_update]

/-- A change of a context changes its errand in the table. -/
@[simp]
theorem table_setCtx (s : Sys) (p : Slot) (k : Ctx) :
    (s.setCtx p k).table = { s.table with errand := update s.table.errand p k.errand } := by
  simp [table, setCtx, comp_update]

/-- A process that does not sleep waits for nothing. -/
theorem Ok.awake {s : Sys} (h : s.Ok) {p : Slot} (hp : (s.proc p).p_stat.asleep = false) :
    (s.proc p).p_wchan = none := by
  by_contra hw
  simp [h.sleepers p hw] at hp

/-- A change to one entry keeps a state in order if the entry still sleeps only when live. -/
theorem Ok.setProc {s : Sys} (h : s.Ok) {p : Slot} {f : Proc → Proc}
    (hp : (f (s.proc p)).p_wchan ≠ none → (f (s.proc p)).p_stat.asleep = true) :
    (s.setProc p f).Ok where
  coremap := h.coremap
  swapmap := h.swapmap
  sleepers q := by
    by_cases hq : q = p
    · subst hq
      simpa [Sys.setProc] using hp
    · simpa [Sys.setProc, hq] using h.sleepers q
  sched := h.sched

/-- A new `coremap` is a new free list of core. -/
theorem table_withCoremap (s : Sys) (coremap : List Map) :
    { s with coremap }.table = { s.table with core := freeUnits coremap } := rfl

/-- The tables stay in order when `coremap` is replaced by one in order. -/
theorem Ok.withCoremap {s : Sys} (h : s.Ok) {coremap : List Map} (hm : MapOk coremap) :
    { s with coremap }.Ok :=
  ⟨hm, h.swapmap, h.sleepers, h.sched⟩

/-- The tables stay in order when `swapmap` is replaced by one in order. -/
theorem Ok.withSwapmap {s : Sys} (h : s.Ok) {swapmap : List Map} (hm : MapOk swapmap) :
    { s with swapmap }.Ok :=
  ⟨h.coremap, hm, h.sleepers, h.sched⟩

/-- The tables stay in order when a process is given a context, if process 0 alone is the scheduler.
-/
theorem Ok.setCtx {s : Sys} (h : s.Ok) {p : Slot} {k : Ctx} (hk : k.isSched = true ↔ p = 0) :
    (s.setCtx p k).Ok where
  coremap := h.coremap
  swapmap := h.swapmap
  sleepers := h.sleepers
  sched q := by
    by_cases hq : q = p
    · subst hq
      simpa [Sys.setCtx] using hk
    · simpa [Sys.setCtx, hq] using h.sched q

end Sys

/-! ## Sleep and wakeup -/

/-- `s'` differs from `s` in nothing that custody depends on. -/
structure Quiet (s s' : Sys) : Prop where
  table : s'.table = s.table
  ok : s.Ok → s'.Ok

namespace Quiet

variable {s s' s'' : Sys}

theorem refl (s : Sys) : Quiet s s := ⟨rfl, id⟩

theorem trans (h : Quiet s s') (h' : Quiet s' s'') : Quiet s s'' :=
  ⟨h'.table.trans h.table, h'.ok ∘ h.ok⟩

theorem image (h : Quiet s s') (p : Slot) : (s'.proc p).image = (s.proc p).image :=
  congrFun (congrArg Table.img h.table) p

/-- The counters and the flags of `swbuf` do not matter. -/
theorem flags (s : Sys) (swbuf : Swbuf) (mpid runin runout : ℕ) :
    Quiet s { s with swbuf, mpid, runin, runout } :=
  ⟨rfl, fun h => ⟨h.coremap, h.swapmap, h.sleepers, h.sched⟩⟩

/-- An update of entry `p` that does not change its image. -/
theorem setProc (p : Slot) {f : Proc → Proc} (hf : (f (s.proc p)).image = (s.proc p).image)
    (hp : s.Ok → (f (s.proc p)).p_wchan ≠ none → (f (s.proc p)).p_stat.asleep = true) :
    Quiet s (s.setProc p f) where
  table := by
    rw [Sys.table_setProc, hf, ← Sys.table_img, update_eq_self]
  ok h := h.setProc (hp h)

/-- A fold of quiet steps. -/
theorem foldl {α : Type} {f : Sys → α → Sys} {l : List α}
    (hf : ∀ s a, s.Ok → Quiet s (f s a)) (hs : s.Ok) : Quiet s (l.foldl f s) := by
  induction l generalizing s with
  | nil => exact refl s
  | cons a l ih =>
    have h := hf s a hs
    exact h.trans (ih (h.ok hs))

end Quiet

/-- A process that is made runnable stays where it is. -/
theorem setrunState_quiet {p : Slot} {s : Sys} (hp : (s.proc p).p_stat.kind = .live) :
    Quiet s (setrunState p s) :=
  Quiet.setProc p (by simp [Proc.image, hp]) (by simp)

theorem wakeupRunout_quiet {s : Sys} (hs : s.Ok) : Quiet s (wakeupRunout s) := by
  refine Quiet.foldl (fun s p hs => ?_) hs
  split
  · next hp => exact setrunState_quiet (PStat.kind_of_asleep (hs.sleepers p (by simp [hp])))
  · exact Quiet.refl s

/-- `setrun` moves no image. -/
theorem setrun_quiet {p : Slot} {s : Sys} (hs : s.Ok) (hp : (s.proc p).p_stat.kind = .live) :
    Quiet s (setrun p s) := by
  have h := setrunState_quiet hp
  unfold setrun
  dsimp only
  split
  · have h' := Quiet.flags (setrunState p s) (setrunState p s).swbuf (setrunState p s).mpid
      (setrunState p s).runin 0
    exact (h.trans h').trans (wakeupRunout_quiet (h'.ok (h.ok hs)))
  · exact h

theorem wakeup_quiet (c : Chan) {s : Sys} (hs : s.Ok) : Quiet s (wakeup c s) := by
  refine Quiet.foldl (fun s p hs => ?_) hs
  split
  · next hp => exact setrun_quiet hs (PStat.kind_of_asleep (hs.sleepers p (by simp [hp])))
  · exact Quiet.refl s

/-- `sleep` moves no image. -/
theorem sleep_quiet (c : Chan) (pri : ℤ) {p : Slot} {s : Sys} (hs : s.Ok)
    (hp : (s.proc p).p_stat.kind = .live) : Quiet s (sleep c pri p s) := by
  unfold sleep
  split
  · dsimp only
    have h : Quiet s (s.setProc p fun rp => { rp with p_wchan := some c, p_stat := .swait }) :=
      Quiet.setProc p (by simp [Proc.image, hp]) (by simp [PStat.asleep])
    split
    · have h' := Quiet.flags (s.setProc p fun rp => { rp with p_wchan := some c, p_stat := .swait })
        s.swbuf s.mpid 0 s.runout
      exact (h.trans h').trans (wakeup_quiet _ (h'.ok (h.ok hs)))
    · exact h
  · exact Quiet.setProc p (by simp [Proc.image, hp]) (by simp [PStat.asleep])

/-! ## The two maps -/

theorem zero_notMem_corePool : 0 ∉ corePool := by
  simp [corePool, USPACE]

theorem zero_notMem_swapPool : 0 ∉ swapPool := by
  simp [swapPool, swplo]

theorem lt_of_mem_corePool : ∀ x ∈ corePool, x < 65535 := by
  intro x hx
  simp only [corePool, USPACE, Set.mem_Ico] at hx
  omega

theorem lt_of_mem_swapPool : ∀ x ∈ swapPool, x < 65535 := by
  intro x hx
  simp only [swapPool, swplo, nswap, Set.mem_Ico] at hx
  omega

section

variable {ι : Type} {own : ι → Set ℕ} {total : Set ℕ} {mp mp' : List Map} {n a : ℕ}

/-- `malloc` fails and changes nothing, or takes units that were free. -/
theorem malloc_pool (hmp : MapOk mp) (ho : Ownership own (freeUnits mp) total) (h0 : 0 ∉ total)
    (hn : 0 < n) (h : malloc mp n = some (a, mp')) :
    MapOk mp' ∧ (a = 0 ∧ mp' = mp ∨
      a ≠ 0 ∧ span a n ⊆ freeUnits mp ∧ freeUnits mp' = freeUnits mp \ span a n) := by
  obtain ⟨hmp', -, ⟨ha, hmp'', -⟩ | ⟨⟨hle, -⟩, hfree⟩⟩ := malloc_freeUnits hmp hn h
  · exact ⟨hmp', Or.inl ⟨ha, hmp''⟩⟩
  · refine ⟨hmp', Or.inr ⟨?_, hle, hfree⟩⟩
    rintro rfl
    -- unit 0 is in no pool
    have hmem : 0 ∈ freeUnits mp := hle ⟨le_rfl, by omega⟩
    exact h0 (ho.mem_total_iff.mpr (Or.inr hmem))

/-- `mfree` makes the units of an owner free. -/
theorem mfree_pool (hmp : MapOk mp) (ho : Ownership own (freeUnits mp) total)
    (htotal : ∀ x ∈ total, x < 65535) {i : ι} (hi : own i = span a n) (hn : 0 < n)
    (h : mfree mp n a = some mp') : MapOk mp' ∧ freeUnits mp' = freeUnits mp ∪ span a n := by
  have hlast : a + n - 1 ∈ own i := by
    rw [hi]
    exact ⟨by omega, by omega⟩
  have hlt := htotal _ (ho.own_subset i hlast)
  have hdisj : Disjoint (freeUnits mp) (span a n) := hi ▸ (ho.disjoint_free i).symm
  obtain ⟨hmp', -, hfree⟩ := mfree_freeUnits hmp hn (by omega) hdisj h
  exact ⟨hmp', hfree⟩

end

/-! ## Transfers -/

section

variable {s s' : Sys} {p rp : Slot} {a : ℕ}

/-- A process that enters `swap` leaves with nothing changed but where its kernel stack stands. -/
theorem swapEnter_spec {k : Phase → Ctx} {e : Errand Slot} {blkno : ℕ} (hs : s.Ok)
    (hp : (s.proc p).p_stat.kind = .live) (hk : ∀ ph, (k ph).errand = e)
    (hsched : ∀ ph, (k ph).isSched = true ↔ p = 0) (h : swapEnter p k blkno s = some s') :
    s'.Ok ∧ s'.table = { s.table with errand := update s.table.errand p e } := by
  -- both sleeps record a phase of the same errand
  have hgo : ∀ (swbuf : Swbuf) (ph : Phase),
      (sleep .swbuf PSWP p ({ s with swbuf }.setCtx p (k ph))).Ok ∧
        (sleep .swbuf PSWP p ({ s with swbuf }.setCtx p (k ph))).table =
          { s.table with errand := update s.table.errand p e } := by
    intro swbuf ph
    have hq := Quiet.flags s swbuf s.mpid s.runin s.runout
    have hok : ({ s with swbuf }.setCtx p (k ph)).Ok := (hq.ok hs).setCtx (hsched ph)
    have hsl := sleep_quiet .swbuf PSWP (p := p) hok hp
    refine ⟨hsl.ok hok, ?_⟩
    rw [hsl.table, Sys.table_setCtx, hk, hq.table]
  unfold swapEnter at h
  split at h
  · obtain rfl := Option.some.inj h
    exact hgo _ _
  · split at h
    · simp at h
    · obtain rfl := Option.some.inj h
      exact hgo _ _

theorem swapLeave_quiet (hs : s.Ok) : Quiet s (swapLeave s) := by
  unfold swapLeave
  dsimp only
  split
  · have h := wakeup_quiet .swbuf hs
    exact h.trans (Quiet.flags _ _ _ _ _)
  · exact Quiet.flags _ _ _ _ _

/-- `xswap` locks the image before it writes it. -/
theorem xswapEnter_spec {k : Phase → Ctx} {e : Errand Slot} (hs : s.Ok)
    (hp : (s.proc p).p_stat.kind = .live) (hk : ∀ ph, (k ph).errand = e)
    (hsched : ∀ ph, (k ph).isSched = true ↔ p = 0) (h : xswapEnter p rp k a s = some s') :
    s'.Ok ∧ s'.table = { s.table with
      img := update s.table.img rp { s.table.img rp with slock := true }
      errand := update s.table.errand p e } := by
  unfold xswapEnter at h
  have hok : (s.setProc rp fun r => { r with p_flag := { r.p_flag with slock := true } }).Ok :=
    hs.setProc (hs.sleepers rp)
  have hp' : ((s.setProc rp fun r => { r with p_flag := { r.p_flag with slock := true } }).proc
      p).p_stat.kind = .live := by
    by_cases hpr : p = rp
    · subst hpr
      simpa [Sys.setProc] using hp
    · simpa [Sys.setProc, hpr] using hp
  obtain ⟨hs', ht⟩ := swapEnter_spec hok hp' hk hsched h
  refine ⟨hs', ?_⟩
  rw [ht, Sys.table_setProc]
  rfl

/-- `xswap` after the transfer. -/
theorem xswapLeave_spec {ff : Bool} (hs : s.Ok) (hc : Custody s.table)
    (hff : ff = true → s.table.InCore rp) (h : xswapLeave rp ff a s = some s') :
    s'.Ok ∧ s'.table = { s.table with
      img := update s.table.img rp
        { s.table.img rp with addr := a, sload := false, slock := false }
      core := if ff then s.table.core ∪ span (s.table.img rp).addr (s.table.img rp).size
        else s.table.core } := by
  have hq := swapLeave_quiet hs
  have hs₁ := hq.ok hs
  have himg := hq.image rp
  have haddr : ((swapLeave s).proc rp).p_addr = (s.proc rp).p_addr := congrArg Image.addr himg
  have hsize : ((swapLeave s).proc rp).p_size = (s.proc rp).p_size := congrArg Image.size himg
  have hcore : freeUnits (swapLeave s).coremap = s.table.core := congrArg Table.core hq.table
  unfold xswapLeave at h
  obtain ⟨coremap, hmap, h⟩ := Option.bind_eq_some_iff.mp h
  rw [haddr, hsize] at hmap
  -- the core that the image leaves
  have hfree : MapOk coremap ∧ freeUnits coremap =
      if ff then s.table.core ∪ span (s.proc rp).p_addr (s.proc rp).p_size
      else s.table.core := by
    cases ff with
    | false =>
      obtain rfl : (swapLeave s).coremap = coremap := by simpa using hmap
      exact ⟨hs₁.coremap, hcore⟩
    | true =>
      have hin := hff rfl
      have hown : s.table.coreOwn (.image rp) = span (s.proc rp).p_addr (s.proc rp).p_size :=
        owned_eq fun _ _ => and_iff_right hin
      have hkind : (s.table.img rp).kind ≠ .free := by
        obtain ⟨-, hk | hk, -⟩ := hin <;> rw [hk] <;> decide
      have hpos : 0 < (s.proc rp).p_size := by
        have := hc.control.size rp hkind
        simp only [Sys.table_img, Proc.image] at this
        rw [this]
        decide
      have hmf := mfree_pool hs₁.coremap (by rw [hcore]; exact hc.core) lt_of_mem_corePool hown hpos
        (by simpa using hmap)
      rw [hcore] at hmf
      simpa using hmf
  -- the entry is updated, and sleepers on `runout` are woken
  have hq₂ : ∀ s₂ : Sys, s₂.Ok →
      Quiet s₂ (if s₂.runout ≠ 0 then wakeup .runout { s₂ with runout := 0 } else s₂) := by
    intro s₂ hs₂
    split
    · have h := Quiet.flags s₂ s₂.swbuf s₂.mpid s₂.runin 0
      exact h.trans (wakeup_quiet _ (h.ok hs₂))
    · exact Quiet.refl s₂
  have hs₂ : ({ swapLeave s with coremap }.setProc rp fun r => { r with
      p_addr := a, p_flag := { r.p_flag with sload := false, slock := false }, p_time := 0 }).Ok :=
    (hs₁.withCoremap hfree.1).setProc (hs₁.sleepers rp)
  obtain rfl := Option.some.inj h
  refine ⟨(hq₂ _ hs₂).ok hs₂, ?_⟩
  have hnew : { s.table.img rp with addr := a, sload := false, slock := false } =
      { ((swapLeave s).proc rp).image with addr := a, sload := false, slock := false } := by
    rw [himg]
    rfl
  rw [(hq₂ _ hs₂).table, Sys.table_setProc, Sys.table_withCoremap, hq.table, hfree.2, hnew]
  rfl

end

/-! ## `newproc` -/

section

variable {s s' : Sys} {rip rpp : Slot}

/-- A process has at least one page, and so at least one swap block. -/
theorem swapBlocks_pos {s : Sys} (hc : Custody s.table) {p : Slot}
    (hp : (s.proc p).p_stat.kind ≠ .free) :
    0 < (s.proc p).p_size ∧ 0 < swapBlocks (s.proc p).p_size := by
  have hsize : (s.proc p).p_size = PSIZE := hc.control.size p hp
  rw [hsize]
  decide

/-- The child entry gets swap space and starts to write its parent's core, or waits for space. -/
theorem newprocSwap_spec (hs : s.Ok) (hp : (s.proc rpp).p_stat.kind = .live) (h0 : rpp ≠ 0)
    (hc : Custody (s.setCtx rpp (.newprocWait rip)).table) (h : newprocSwap rip rpp s = some s') :
    s'.Ok ∧ ReflGen Next (s.setCtx rpp (.newprocWait rip)).table s'.table := by
  unfold newprocSwap at h
  obtain ⟨⟨a2, swapmap⟩, hm, h⟩ := Option.bind_eq_some_iff.mp h
  dsimp only at h
  have hpos : 0 < swapBlocks (s.proc rpp).p_size :=
    (swapBlocks_pos (s := s.setCtx rpp (.newprocWait rip)) hc (p := rpp) (by simp [Sys.setCtx, hp])).2
  obtain ⟨hmap, hm⟩ := malloc_pool hs.swapmap hc.swap zero_notMem_swapPool hpos hm
  obtain ⟨rfl, rfl⟩ | ⟨ha, hle, hfree⟩ := hm
  · -- no space: sleep on `&swapmap`
    rw [if_pos rfl] at h
    obtain rfl := Option.some.inj h
    have hok : (s.setCtx rpp (.newprocWait rip)).Ok := hs.setCtx (by simp [Ctx.isSched, h0])
    have hq := sleep_quiet .swapmap PSWP (p := rpp) hok hp
    refine ⟨hq.ok hok, ?_⟩
    rw [hq.table]
  · rw [if_neg ha] at h
    obtain ⟨hs', ht⟩ := xswapEnter_spec (e := .copy rip (some a2)) (hs.withSwapmap hmap) hp
      (fun ph => rfl) (fun ph => by simp [Ctx.isSched, h0]) h
    have hn := @Next.copyOut _ _ (s.setCtx rpp (.newprocWait rip)).table rpp rip a2
      (by simp [Sys.setCtx, Ctx.errand]) hle
    refine ⟨hs', ReflGen.single ?_⟩
    convert hn using 1
    rw [ht]
    refine Table.ext rfl rfl ?_ rfl hfree
    simp [Table.put, Sys.table, Sys.setCtx, comp_update]

/-- `newproc` chooses a number that no process has. -/
theorem newPid_spec {used : ℕ → Bool} {tries mpid pid : ℕ} (h : newPid used tries mpid = some pid) :
    used pid = false := by
  induction tries generalizing mpid with
  | zero => simp [newPid] at h
  | succ tries ih =>
    unfold newPid at h
    split at h
    · exact ih h
    · split at h
      · exact ih h
      · next hused =>
        obtain rfl := Option.some.inj h
        simpa using hused

theorem freeSlot_spec (h : freeSlot s = some rpp) : (s.proc rpp).p_stat = .null := by
  simpa using List.find?_some h

/-- `newproc` either gives the child core of its own, or lets it denote its parent's. Process 0
only makes process 1, when there is core. -/
theorem newproc_spec (hs : s.Ok) (hc : Custody s.table) (hrip : (s.proc rip).p_stat = .srun)
    (hload : (s.proc rip).p_flag.sload = true) (herrand : (s.ctx rip).errand = .none)
    (h0 : rip ≠ 0 ∨ ∀ coremap, malloc s.coremap (s.proc rip).p_size ≠ some (0, coremap))
    (h : newproc rip s = some s') : s'.Ok ∧ ReflTransGen Next s.table s'.table := by
  unfold newproc at h
  obtain ⟨mpid, hpid, h⟩ := Option.bind_eq_some_iff.mp h
  obtain ⟨rpp, hrpp, h⟩ := Option.bind_eq_some_iff.mp h
  obtain ⟨⟨a2, coremap⟩, hm, h⟩ := Option.bind_eq_some_iff.mp h
  dsimp only at h
  have hfree := freeSlot_spec hrpp
  -- the child's number is new, and its slot was free
  have hfresh : ∀ p, (s.proc p).p_pid ≠ mpid := by
    simpa using newPid_spec hpid
  have hne : rip ≠ rpp := by
    rintro rfl
    simp [hrip] at hfree
  have hrpp0 : rpp ≠ 0 := by
    rintro rfl
    have hlive : (s.proc 0).p_stat.kind = .live := hc.control.system.1
    simp [hfree] at hlive
  have hwait : (s.proc rpp).p_wchan = none := hs.awake (by simp [hfree, PStat.asleep])
  have hwait' : (s.proc rip).p_wchan = none := hs.awake (by simp [hrip, PStat.asleep])
  -- the core asked for has some length, and comes from the pool
  have hpos := (swapBlocks_pos hc (p := rip) (by simp [hrip])).1
  obtain ⟨hmap, hm'⟩ := malloc_pool hs.coremap hc.core zero_notMem_corePool hpos hm
  obtain ⟨rfl, rfl⟩ | ⟨ha, hle, hcore⟩ := hm'
  · -- no core: the parent becomes `SIDL` and the child denotes its core
    rw [if_pos rfl] at h
    have h0 : rip ≠ 0 := h0.resolve_right fun hno => hno _ hm
    have hn := @Next.forkCopy _ _ s.table rip rpp mpid
      (by simp [Proc.image, hrip]) h0 herrand hload (by simp [Proc.image, hfree]) hfresh
    obtain ⟨s₁, hs₁, h⟩ : ∃ s₁, s₁ = _ ∧ newprocSwap rip rpp s₁ = some s' := ⟨_, rfl, h⟩
    -- the two entries written keep the system well formed
    have hok : s₁.Ok := by
      rw [hs₁]
      refine ((((?_ : Sys.Ok _).setProc ?_).setCtx ?_).setProc ?_).setProc ?_
      · exact ⟨hs.coremap, hs.swapmap, hs.sleepers, hs.sched⟩
      · simp [hwait]
      · simpa [Ctx.isSched] using hrpp0
      · simp [Sys.setProc, Sys.setCtx, hne, hwait']
      · simp [Sys.setProc, Sys.setCtx, hne.symm, hwait]
    have hlive : (s₁.proc rpp).p_stat.kind = .live := by
      simp [hs₁, Sys.setProc, Sys.setCtx, hne.symm]
    -- the table as it is handed to the swap: the parent idle, the child with its core
    have ht : (s₁.setCtx rpp (.newprocWait rip)).table =
        (s.table.put rip { s.table.img rip with kind := .idle } .none).put rpp
          (s.table.newImage rip (s.table.img rip).addr mpid) (.copy rip none) := by
      rw [hs₁]
      refine Table.ext rfl (funext fun q => ?_) (funext fun q => ?_) rfl rfl
      · by_cases hq : q = rpp
        · simp [Table.put, Table.newImage, Sys.setProc, Sys.setCtx, hq, hne, hne.symm, Proc.image]
        · by_cases hq' : q = rip <;>
            simp [Table.put, Sys.setProc, Sys.setCtx, hq, hq', hne, Proc.image]
      · by_cases hq : q = rpp
        · simp [Table.put, Sys.setProc, Sys.setCtx, hq, Ctx.errand]
        · by_cases hq' : q = rip <;>
            simp [Table.put, Sys.setProc, Sys.setCtx, hq, hq', hne, herrand]
    -- the rest is the double swap of `newproc`
    obtain ⟨hs', hrun⟩ := newprocSwap_spec hok hlive hrpp0 (ht ▸ hc.next hn) h
    exact ⟨hs', ReflTransGen.head hn (ht ▸ hrun.to_reflTransGen)⟩
  · -- the child gets core of its own
    rw [if_neg ha] at h
    obtain rfl := Option.some.inj h
    refine ⟨?_, ReflTransGen.single ?_⟩
    -- the new child's entries keep the system well formed
    · refine (((?_ : Sys.Ok _).setProc ?_).setCtx ?_).setProc ?_
      · exact ⟨hmap, hs.swapmap, hs.sleepers, hs.sched⟩
      · simp [hwait]
      · simpa [Ctx.isSched] using hrpp0
      · simp [Sys.setProc, Sys.setCtx, hwait]
    -- the child has got the core that `malloc` gave
    · have hn := @Next.forkCore _ _ s.table rip rpp a2 mpid
        (by simp [Proc.image, hrip]) (by simp [Proc.image, hfree]) hfresh hle
      convert hn using 1
      refine Table.ext rfl (funext fun q => ?_) ?_ hcore rfl
      · by_cases hq : q = rpp <;>
          simp [Table.put, Sys.setProc, Sys.setCtx, hq, Proc.image, Table.newImage]
      · simp only [Table.put, Sys.table_setProc, Sys.table_setCtx, Ctx.errand]
        rfl

end

/-! ## `exit` and `wait` -/

section

variable {s s' : Sys} {q c : Slot} {a f : ℕ}

/-- `exit` gives up core, and goes on to the swap block. -/
theorem exit_spec (hs : s.Ok) (hc : Custody s.table) (hq : (s.proc q).p_stat = .srun) (h0 : q ≠ 0)
    (herrand : (s.ctx q).errand = .none) (h : exit q s = some s') :
    s'.Ok ∧ Next s.table s'.table := by
  unfold exit at h
  obtain ⟨⟨a, swapmap⟩, hm, h⟩ := Option.bind_eq_some_iff.mp h
  dsimp only at h
  obtain ⟨hmap, ⟨rfl, -⟩ | ⟨ha, hle, hfree⟩⟩ :=
    malloc_pool hs.swapmap hc.swap zero_notMem_swapPool one_pos hm
  · simp at h
  · rw [if_neg ha] at h
    obtain rfl := Option.some.inj h
    have hn := Next.exitStart (t := s.table) (q := q) (a := a) (by simp [Proc.image, hq]) h0 herrand
      hle
    refine ⟨?_, ?_⟩
    · refine ((?_ : Sys.Ok _).setProc ?_).setCtx ?_
      · exact ⟨hs.coremap, hmap, hs.sleepers, hs.sched⟩
      · exact hs.sleepers q
      · simpa [Ctx.isSched] using h0
    · convert hn using 1
      refine Table.ext rfl ?_ ?_ rfl hfree
      · simp only [Table.put, Sys.table_setProc, Sys.table_setCtx]
        rfl
      · simp only [Table.put, Sys.table_setProc, Sys.table_setCtx, Ctx.errand]
        rfl

/-- What the rest of `exit` may change, once `q` is a zombie: the parents of `q` and of its
children. -/
structure Orphans (q : Slot) (s s' : Sys) : Prop where
  ok : s.Ok → s'.Ok
  sys : s'.table.errand = s.table.errand
  core : s'.table.core = s.table.core
  swap : s'.table.swap = s.table.swap
  img : ∀ p, ∃ ppid, s'.table.img p = { s.table.img p with ppid } ∧
    (p ≠ q → (s.table.img p).ppid ≠ (s.table.img q).pid → ppid = (s.table.img p).ppid)

namespace Orphans

theorem of_quiet (h : Quiet s s') : Orphans q s s' where
  ok := h.ok
  sys := congrArg Table.errand h.table
  core := congrArg Table.core h.table
  swap := congrArg Table.swap h.table
  img p := ⟨(s.table.img p).ppid, by rw [h.table], fun _ _ => rfl⟩

/-- Two groups of orphans. -/
theorem trans {s'' : Sys} (h : Orphans q s s') (h' : Orphans q s' s'') : Orphans q s s'' where
  ok := h'.ok ∘ h.ok
  sys := h'.sys.trans h.sys
  core := h'.core.trans h.core
  swap := h'.swap.trans h.swap
  img p := by
    obtain ⟨ppid, hp, hkeep⟩ := h.img p
    obtain ⟨ppid', hp', hkeep'⟩ := h'.img p
    obtain ⟨ppidq, hq, -⟩ := h.img q
    refine ⟨ppid', by rw [hp', hp], fun hpq hne => ?_⟩
    rw [hp, hq] at hkeep'
    have hppid := hkeep hpq hne
    rw [hkeep' hpq (by rw [hppid]; exact hne), hppid]

/-- `p` becomes a child of process 1. -/
theorem setParent {p : Slot} (hp : p = q ∨ (s.proc p).p_ppid = (s.proc q).p_pid) :
    Orphans q s (s.setProc p fun r => { r with p_ppid := 1 }) where
  ok hs := hs.setProc (hs.sleepers p)
  sys := by rw [Sys.table_setProc]
  core := by rw [Sys.table_setProc]
  swap := by rw [Sys.table_setProc]
  img k := by
    rw [Sys.table_setProc]
    by_cases hk : k = p
    · subst hk
      refine ⟨1, by simp [Proc.image], fun hkq hne => ?_⟩
      exact absurd (hp.resolve_left hkq) hne
    · exact ⟨(s.table.img k).ppid, by simp [hk], fun _ _ => rfl⟩

end Orphans

theorem disown_orphans (hs : s.Ok) (p : Slot) : Orphans q s (disown q s p) := by
  unfold disown
  split
  · next hp =>
    have h := Orphans.setParent (Or.inr hp.symm)
    dsimp only
    split
    · next hstop => exact h.trans (.of_quiet (setrun_quiet (h.ok hs) (by simp [hstop])))
    · exact h
  · exact .of_quiet (Quiet.refl s)

/-- The loop of `exit` over the children. -/
theorem foldl_disown_orphans (l : List Slot) (hs : s.Ok) : Orphans q s (l.foldl (disown q) s) := by
  induction l generalizing s with
  | nil => exact .of_quiet (Quiet.refl s)
  | cons p l ih =>
    have h := disown_orphans (q := q) hs p
    exact h.trans (ih (h.ok hs))

/-- The search of `exit` for its parent. -/
theorem exitParent_orphans {p : Slot} (h : exitParent q s = some (p, s')) : Orphans q s s' := by
  unfold exitParent at h
  split at h
  · obtain ⟨-, rfl⟩ := Prod.mk.inj (Option.some.inj h)
    exact .of_quiet (Quiet.refl s)
  · obtain ⟨_, -, h⟩ := Option.map_eq_some_iff.mp h
    obtain ⟨-, rfl⟩ := Prod.mk.inj h
    exact Orphans.setParent (Or.inl rfl)

/-- `exit` is done when its swap block has been written. -/
theorem exitDone_spec (hs : s.Ok) (hc : Custody s.table) (hq : (s.proc q).p_stat = .srun)
    (hload : (s.proc q).p_flag.sload = true) (hctx : s.ctx q = .exitWrite a)
    (h : exitDone q a s = some s') : s'.Ok ∧ Next s.table s'.table := by
  unfold exitDone at h
  obtain ⟨coremap, hmf, h⟩ := Option.bind_eq_some_iff.mp h
  obtain ⟨⟨p, s₂⟩, hparent, h⟩ := Option.bind_eq_some_iff.mp h
  dsimp only at hparent h
  have herrand : s.table.errand q = .bury a := by simp [hctx, Ctx.errand]
  have h0 : q ≠ 0 := by
    rintro rfl
    simpa [hctx, Ctx.isSched] using hs.sched 0
  have hlive : (s.proc q).p_stat.kind = .live := by simp [hq]
  -- the core of `q` becomes free
  have hin : s.table.InCore q :=
    ⟨h0, Or.inl hlive, by rw [herrand]; rfl, Or.inl hload⟩
  have hown : s.table.coreOwn (.image q) = span (s.proc q).p_addr (s.proc q).p_size :=
    owned_eq fun _ _ => and_iff_right hin
  obtain ⟨hmap, hfree⟩ := mfree_pool hs.coremap hc.core lt_of_mem_corePool hown
    (swapBlocks_pos hc (by simp [hlive])).1 hmf
  obtain ⟨s₁, hs₁, hparent⟩ : ∃ s₁, s₁ = _ ∧ exitParent q s₁ = some (p, s₂) := ⟨_, rfl, hparent⟩
  have hok₁ : s₁.Ok := by
    rw [hs₁]
    exact (hs.withCoremap hmap).setProc fun hw =>
      absurd (hs.awake (by simp [hq, PStat.asleep])) hw
  have ht₁ : s₁.table = { s.table with
      img := update s.table.img q { s.table.img q with kind := .zombie, addr := a }
      core := s.table.core ∪ span (s.table.img q).addr (s.table.img q).size } := by
    rw [hs₁, Sys.table_setProc]
    exact Table.ext rfl rfl rfl hfree rfl
  -- the rest wakes up processes and gives children another parent
  have hwake : Quiet s₂ (wakeup (.proc p) (wakeup (.proc 1) s₂)) := by
    have hok₂ := (exitParent_orphans hparent).ok hok₁
    have h₁ := wakeup_quiet (.proc 1) hok₂
    exact h₁.trans (wakeup_quiet _ (h₁.ok hok₂))
  have horph := (exitParent_orphans hparent).trans (.of_quiet (q := q) hwake)
  have horph := horph.trans (foldl_disown_orphans (q := q) (List.finRange NPROC) (horph.ok hok₁))
  generalize (List.finRange NPROC).foldl (disown q) (wakeup (.proc p) (wakeup (.proc 1) s₂)) = s₃
    at h horph
  obtain rfl := Option.some.inj h
  refine ⟨(horph.ok hok₁).setCtx (by simpa [Ctx.isSched] using h0), ?_⟩
  choose ppid himg hkeep using horph.img
  have hkeep' : ∀ p, p ≠ q → (s.table.img p).ppid ≠ (s.table.img q).pid →
      ppid p = (s.table.img p).ppid := by
    intro p hp
    simpa [ht₁, hp] using hkeep p hp
  have hn := Next.exitDone herrand hload hkeep'
  convert hn using 1
  rw [Sys.table_setCtx]
  refine Table.ext rfl (funext fun p => ?_) ?_ ?_ ?_
  · by_cases hp : p = q
    · subst hp
      simpa [ht₁] using himg p
    · simpa [ht₁, hp] using himg p
  · rw [horph.sys, ht₁]
    rfl
  · exact horph.core.trans (by rw [ht₁])
  · exact horph.swap.trans (by rw [ht₁])

/-- A process with no work in hand may stand anywhere else. -/
theorem setCtx_idle {k : Ctx} (hs : s.Ok) (h0 : q ≠ 0) (herrand : s.table.errand q = .none)
    (hk : k.isSched = false) (hke : k.errand = .none) :
    (s.setCtx q k).Ok ∧ (s.setCtx q k).table = s.table := by
  refine ⟨hs.setCtx (by simp [hk, h0]), ?_⟩
  rw [Sys.table_setCtx, hke, ← herrand, update_eq_self]

/-- The flags that `wait` changes in a stopped child do not matter. -/
theorem setFlag_quiet {p : Slot} {g : PFlag → PFlag}
    (hg : ∀ fl, (g fl).sload = fl.sload ∧ (g fl).slock = fl.slock ∧ (g fl).ssys = fl.ssys) :
    Quiet s (s.setProc p fun r => { r with p_flag := g r.p_flag }) := by
  obtain ⟨hload, hlock, hsys⟩ := hg (s.proc p).p_flag
  exact Quiet.setProc p (by simp [Proc.image, hload, hlock, hsys]) fun hs => hs.sleepers p

/-- `wait` sleeps, returns, or starts to read a zombie. -/
theorem waitScan_spec {l : List Slot} {b : Bool} (hs : s.Ok)
    (hq : (s.table.img q).kind = .live) (h0 : q ≠ 0) (herrand : s.table.errand q = .none) :
    (waitScan q l b s).Ok ∧ ReflGen Next s.table (waitScan q l b s).table := by
  induction l generalizing s b with
  | nil =>
    unfold waitScan
    split
    · -- there are children: sleep until one changes
      obtain ⟨hok, ht⟩ := setCtx_idle (k := .waitSleep) hs h0 herrand rfl rfl
      have hsl := sleep_quiet (.proc q) PWAIT (p := q) hok hq
      exact ⟨hsl.ok hok, by rw [hsl.table, ht]⟩
    · obtain ⟨hok, ht⟩ := setCtx_idle (k := .user) hs h0 herrand rfl rfl
      exact ⟨hok, by rw [ht]⟩
  | cons p ps ih =>
    unfold waitScan
    split
    · next hchild =>
      split
      · next hzomb =>
        -- a zombie: its image on the swap device is read first
        refine ⟨hs.setCtx (by simp [Ctx.isSched, h0]), ReflGen.single ?_⟩
        have hn := Next.reapStart (t := s.table) (q := q) (c := p) hq h0 herrand
          (by simp [Proc.image, hzomb]) hchild
        convert hn using 1
        rw [Sys.table_setCtx, Table.put, update_eq_self]
        rfl
      · split
        · next hstop =>
          -- a traced child that has stopped
          have hlive : (s.proc p).p_stat.kind = .live := by simp [hstop]
          split
          · have h := setFlag_quiet (s := s) (p := p) (g := fun fl => { fl with swted := true })
              (fun _ => ⟨rfl, rfl, rfl⟩)
            obtain ⟨hok, ht⟩ := setCtx_idle (k := .user) (h.ok hs) h0 (by rw [h.table, herrand])
              rfl rfl
            exact ⟨hok, by rw [ht, h.table]⟩
          · have h := setFlag_quiet (s := s) (p := p)
              (g := fun fl => { fl with strc := false, swted := false }) (fun _ => ⟨rfl, rfl, rfl⟩)
            have hrun := setrun_quiet (p := p) (h.ok hs) (by simpa [Sys.setProc] using hlive)
            have ht := (h.trans hrun).table
            rw [← ht]
            exact ih (hrun.ok (h.ok hs)) (by rw [ht, hq]) (by rw [ht, herrand])
        · exact ih hs hq herrand
    · exact ih hs hq herrand

/-- `wait` is done when it has read the swap block of the child. -/
theorem waitDone_spec (hs : s.Ok) (hc : Custody s.table) (hctx : s.ctx q = .waitRead c f)
    (h : waitDone q c f s = some s') : s'.Ok ∧ Next s.table s'.table := by
  unfold waitDone at h
  obtain ⟨swapmap, hmf, h⟩ := Option.bind_eq_some_iff.mp h
  have herrand : s.table.errand q = .reap c f := by simp [hctx, Ctx.errand]
  obtain ⟨hz, haddr, -⟩ := hc.control.reap q c f herrand
  -- a zombie has no work in hand
  have hce : s.table.errand c = .none := by
    by_contra hne
    exact absurd ((hc.control.busy c hne).symm.trans hz) (by decide)
  have hqc : q ≠ c := by
    rintro rfl
    exact absurd (hce.symm.trans herrand) (by simp)
  have h0 : q ≠ 0 := by
    rintro rfl
    simpa [hctx, Ctx.isSched] using hs.sched 0
  have hown : s.table.swapOwn (.image c) = span f 1 := by
    refine owned_eq fun a n => ?_
    grind [Table.swapArea]
  obtain ⟨hmap, hfree⟩ := mfree_pool hs.swapmap hc.swap lt_of_mem_swapPool hown one_pos hmf
  obtain rfl := Option.some.inj h
  have hn := Next.reapDone herrand
  refine ⟨?_, ?_⟩
  · refine ((?_ : Sys.Ok _).setProc ?_).setCtx ?_
    · exact ⟨hs.coremap, hmap, hs.sleepers, hs.sched⟩
    · intro hw
      have hasleep := PStat.kind_of_asleep (hs.sleepers c hw)
      rw [Sys.table_img] at hz
      simp [Proc.image, hasleep] at hz
    · simpa [Ctx.isSched] using h0
  · convert hn using 1
    refine Table.ext rfl (funext fun p => ?_) (funext fun p => ?_) rfl hfree
    · by_cases hp : p = c
      · simp [Table.put, Sys.setProc, Sys.setCtx, hp, Proc.image]
      · by_cases hp' : p = q <;> simp [Table.put, Sys.setProc, Sys.setCtx, hp, hp', hqc]
    · by_cases hp : p = c
      · simpa [Table.put, Sys.setProc, Sys.setCtx, hp, hqc.symm] using hce
      · by_cases hp' : p = q <;>
          simp [Table.put, Sys.setProc, Sys.setCtx, hp, hp', hqc, Ctx.errand]

end

/-! ## `sched` -/

section

variable {s s' : Sys} {p1 rp : Slot} {a n : ℕ}

/-- The process that is found meets the condition. -/
theorem oldest_spec {c : Proc → Bool} (h : oldest c s = some (p1, n)) : c (s.proc p1) = true := by
  have hfold : ∀ (l : List Slot) (best : Option (Slot × ℕ)),
      (∀ b ∈ best, c (s.proc b.1) = true) →
      ∀ b ∈ l.foldl (older c s) best, c (s.proc b.1) = true := by
    intro l
    induction l with
    | nil => exact fun best hbest => hbest
    | cons rp l ih =>
      intro best hbest
      refine ih _ ?_
      unfold older
      split
      · next hrp =>
        rintro b ⟨⟩
        exact (Bool.and_eq_true_iff.mp hrp).1
      · exact hbest
  exact hfold _ none (by simp) _ h

/-- A victim is in core, may be swapped, and is live. -/
theorem victim_spec (h : victim n s = some rp) :
    (s.proc rp).p_stat.kind = .live ∧ (s.proc rp).p_flag.sload = true ∧
      (s.proc rp).p_flag.ssys = false ∧ (s.proc rp).p_flag.slock = false := by
  unfold victim at h
  split at h
  · next hfind =>
    obtain rfl := Option.some.inj h
    have hrp := List.find?_some hfind
    simp only [swappable, Bool.and_eq_true, Bool.or_eq_true, Bool.not_eq_true',
      decide_eq_true_eq] at hrp
    obtain ⟨⟨⟨hload, hsys⟩, hlock⟩, hst | hst⟩ := hrp <;> exact ⟨by rw [hst]; rfl, hload, hsys, hlock⟩
  · split at h
    · simp at h
    · split at h
      · next hold =>
        split at h
        · simp at h
        · obtain rfl := Option.some.inj h
          have hrp := oldest_spec hold
          simp only [swappable, Bool.and_eq_true, Bool.or_eq_true, Bool.not_eq_true',
            decide_eq_true_eq] at hrp
          obtain ⟨⟨⟨hload, hsys⟩, hlock⟩, hst | hst⟩ := hrp <;>
            exact ⟨by rw [hst]; rfl, hload, hsys, hlock⟩
      · simp at h

/-- The process that `sched`, at `loop`, sets about swapping out: there is no core for the process
to be swapped in, it is the victim, and there is swap space for it. -/
def swapsOut (s : Sys) : Option Slot := do
  let (p1, n) ← oldest wantsIn s
  let (a, _) ← malloc s.coremap (s.proc p1).p_size
  if a ≠ 0 then none
  else
    let rp ← victim n s
    let (a, _) ← malloc s.swapmap (swapBlocks (s.proc rp).p_size)
    if a = 0 then none else some rp

/-- `sched` starts its loop again. -/
theorem sloop_spec (hs : s.Ok) (hsys : (s.proc 0).p_stat.kind = .live) :
    (sloop s).Ok ∧ (sloop s).table = (s.setCtx 0 .sched).table := by
  have hq := Quiet.flags s s.swbuf s.mpid (s.runin + 1) s.runout
  have hok : ({ s with runin := s.runin + 1 }.setCtx 0 .sched).Ok :=
    (hq.ok hs).setCtx (by simp [Ctx.isSched])
  have hsl := sleep_quiet .runin PSWP (p := 0) hok hsys
  exact ⟨hsl.ok hok, hsl.table⟩

/-- `sched`, from `loop`, starts a transfer or sleeps; it may not swap out a child that waits for
swap space. -/
theorem sched_spec (hs : s.Ok) (hc : Custody (s.setCtx 0 .sched).table)
    (hok : ∀ rp, swapsOut s = some rp → ∀ rip, s.ctx rp ≠ .newprocWait rip)
    (h : sched s = some s') : s'.Ok ∧ ReflGen Next (s.setCtx 0 .sched).table s'.table := by
  have hsys : (s.proc 0).p_stat.kind = .live := hc.control.system.1
  have herrand : (s.setCtx 0 .sched).table.errand 0 = .none := by simp [Sys.setCtx, Ctx.errand]
  unfold sched at h
  split at h
  · -- nobody wants in
    obtain rfl := Option.some.inj h
    have hq := Quiet.flags s s.swbuf s.mpid s.runin (s.runout + 1)
    have hctx : ({ s with runout := s.runout + 1 }.setCtx 0 .sched).Ok :=
      (hq.ok hs).setCtx (by simp [Ctx.isSched])
    have hsl := sleep_quiet .runout PSWP (p := 0) hctx hsys
    exact ⟨hsl.ok hctx, by rw [hsl.table]; rfl⟩
  · next p1 n hold =>
    have hp1 := oldest_spec hold
    simp only [wantsIn, Bool.and_eq_true, Bool.not_eq_true', decide_eq_true_eq] at hp1
    obtain ⟨hrun, hload⟩ := hp1
    have hlive : (s.proc p1).p_stat.kind = .live := by rw [hrun]; rfl
    obtain ⟨⟨a, coremap⟩, hm, h⟩ := Option.bind_eq_some_iff.mp h
    dsimp only at h
    have hpos := (swapBlocks_pos (s := s.setCtx 0 .sched) hc (p := p1)
      (by simp [Sys.setCtx, hlive])).1
    obtain ⟨hmap, hm'⟩ := malloc_pool hs.coremap hc.core zero_notMem_corePool hpos hm
    -- there is no core: something has to be swapped out
    obtain ⟨rfl, rfl⟩ | ⟨ha, hle, hfree⟩ := hm'
    · rw [if_neg (by simp)] at h
      split at h
      · obtain rfl := Option.some.inj h
        -- nobody can be swapped out
        obtain ⟨hs', ht⟩ := sloop_spec hs hsys
        exact ⟨hs', by rw [ht]⟩
      · next rp hvict =>
        obtain ⟨hrlive, hrload, hrsys, hrlock⟩ := victim_spec hvict
        obtain ⟨⟨b, swapmap⟩, hms, h⟩ := Option.bind_eq_some_iff.mp h
        dsimp only at h
        have hpos := (swapBlocks_pos (s := s.setCtx 0 .sched) hc (p := rp)
          (by simp [Sys.setCtx, hrlive])).2
        obtain ⟨hmap', ⟨rfl, rfl⟩ | ⟨hb, hle, hfree⟩⟩ :=
          malloc_pool hs.swapmap hc.swap zero_notMem_swapPool hpos hms
        · rw [if_pos rfl] at h
          obtain rfl := Option.some.inj h
          obtain ⟨hs', ht⟩ := sloop_spec hs hsys
          exact ⟨hs', by rw [ht]⟩
        · rw [if_neg hb] at h
          -- `rp` is the one, and it does not wait for swap space itself
          have hout : swapsOut s = some rp := by
            simp [swapsOut, hold, hm, hvict, hms, hb]
          have hrp0 : rp ≠ 0 := by
            rintro rfl
            exact absurd (hrsys.symm.trans hc.control.system.2.1) (by decide)
          have hcopy : ∀ rip, (s.setCtx 0 .sched).table.errand rp ≠ .copy rip none := by
            intro rip hrip
            simp only [Sys.table_errand, Sys.setCtx, update_of_ne hrp0] at hrip
            exact hok rp hout rip (Ctx.eq_newprocWait hrip)
          have hs₁ : ({ s with swapmap }.setProc rp fun r =>
              { r with p_flag := { r.p_flag with sload := false } }).Ok :=
            (hs.withSwapmap hmap').setProc (hs.sleepers rp)
          obtain ⟨hs', ht⟩ := xswapEnter_spec (e := .swapOut rp b) hs₁
            (by simpa [Sys.setProc, hrp0.symm] using hsys) (fun ph => rfl)
            (fun ph => by simp [Ctx.isSched]) h
          have hn := @Next.swapOutStart _ _ (s.setCtx 0 .sched).table rp b herrand
            hrlive hrload hrsys hrlock hcopy hle
          refine ⟨hs', ReflGen.single ?_⟩
          convert hn using 1
          rw [ht]
          refine Table.ext rfl (funext fun q => ?_) (funext fun q => ?_) rfl hfree
          · by_cases hq : q = rp
            · simp [Table.put, Sys.setProc, Sys.setCtx, hq, Proc.image]
            · by_cases hq0 : q = 0 <;>
                simp [Table.put, Sys.setProc, Sys.setCtx, hq, hq0, hrp0.symm]
          · by_cases hq : q = rp
            · simp [Table.put, Sys.setProc, Sys.setCtx, hq, hrp0]
            · by_cases hq0 : q = 0 <;>
                simp [Table.put, Sys.setProc, Sys.setCtx, hq, hq0, hrp0.symm]
    · -- there is core for `p1`
      rw [if_pos ha] at h
      obtain ⟨hs', ht⟩ := swapEnter_spec (e := .swapIn p1 a) (hs.withCoremap hmap) hsys
        (fun ph => rfl) (fun ph => by simp [Ctx.isSched]) h
      refine ⟨hs', ReflGen.single ?_⟩
      have hn := @Next.swapInStart _ _ (s.setCtx 0 .sched).table p1 a herrand hlive
        hload hle
      convert hn using 1
      rw [ht]
      refine Table.ext rfl ?_ ?_ hfree rfl
      · simp [Table.put, Sys.table, Sys.setCtx]
      · simp [Table.put, Sys.table, Sys.setCtx, comp_update]

/-- The process that `sched` read in is in core. -/
theorem schedInDone_spec {ph : Phase} (hs : s.Ok) (hc : Custody s.table)
    (hctx : s.ctx 0 = .schedIn p1 a ph) (h : schedInDone p1 a s = some s') :
    s'.Ok ∧ Next s.table (s'.setCtx 0 .sched).table := by
  have herrand : s.table.errand s.table.sys = .swapIn p1 a := by simp [hctx, Ctx.errand]
  have hout := hc.control.swapIn p1 a herrand
  have hlive : (s.proc p1).p_stat.kind = .live := hout.1
  have hp1 : p1 ≠ 0 := by
    rintro rfl
    exact absurd (hc.control.system.2.2.symm.trans hout.2.1) (by decide)
  have hq := swapLeave_quiet hs
  have hs₁ := hq.ok hs
  have himg := hq.image p1
  have haddr : ((swapLeave s).proc p1).p_addr = (s.proc p1).p_addr := congrArg Image.addr himg
  have hsize : ((swapLeave s).proc p1).p_size = (s.proc p1).p_size := congrArg Image.size himg
  have hswap : freeUnits (swapLeave s).swapmap = s.table.swap := congrArg Table.swap hq.table
  unfold schedInDone at h
  obtain ⟨swapmap, hmf, h⟩ := Option.bind_eq_some_iff.mp h
  rw [haddr, hsize] at hmf
  -- the swap blocks that the image leaves
  have hown : s.table.swapOwn (.image p1) =
      span (s.proc p1).p_addr (swapBlocks (s.proc p1).p_size) := by
    refine owned_eq fun a n => ?_
    have hz : (s.table.img p1).kind ≠ .zombie := by
      rw [hout.1]
      decide
    constructor
    · rintro (⟨-, h⟩ | ⟨h, -⟩)
      · exact h
      · exact absurd h hz
    · exact fun h => Or.inl ⟨hout, h⟩
  obtain ⟨hmap, hfree⟩ := mfree_pool hs₁.swapmap (by rw [hswap]; exact hc.swap) lt_of_mem_swapPool
    hown (swapBlocks_pos hc (by simp [hlive])).2 hmf
  rw [hswap] at hfree
  have hs₂ := hs₁.withSwapmap hmap
  have hw := wakeup_quiet .swapmap hs₂
  dsimp only at h
  generalize wakeup .swapmap { swapLeave s with swapmap } = s₂ at h hw
  have hs₃ := hw.ok hs₂
  have himg₂ : (s₂.proc p1).image = (s.proc p1).image := (hw.image p1).trans himg
  have ht₂ : s₂.table = { s.table with swap := freeUnits swapmap } := by
    rw [hw.table, ← hq.table]
    rfl
  obtain rfl := Option.some.inj h
  refine ⟨hs₃.setProc (hs₃.sleepers p1), ?_⟩
  have hn := Next.swapInDone herrand
  convert hn using 1
  have hnew : { s.table.img p1 with addr := a, sload := true } =
      { (s₂.proc p1).image with addr := a, sload := true } := by
    rw [himg₂]
    rfl
  rw [Sys.table_setCtx, Sys.table_setProc, ht₂, hnew]
  refine Table.ext rfl (funext fun q => ?_) (funext fun q => ?_) rfl hfree
  · by_cases hq : q = p1
    · simp [Table.put, hq, Proc.image]
    · by_cases hq0 : q = 0 <;> simp [Table.put, hq, hq0, hp1.symm]
  · by_cases hq : q = p1
    · simp [Table.put, hq, hp1]
    · by_cases hq0 : q = 0 <;> simp [Table.put, hq, hq0, hp1.symm, Ctx.errand]

/-- The process that `sched` wrote out has left core. -/
theorem schedOutDone_spec {ph : Phase} (hs : s.Ok) (hc : Custody s.table)
    (hctx : s.ctx 0 = .schedOut rp a ph) (h : xswapLeave rp true a s = some s') :
    s'.Ok ∧ Next s.table (s'.setCtx 0 .sched).table := by
  have herrand : s.table.errand s.table.sys = .swapOut rp a := by simp [hctx, Ctx.errand]
  obtain ⟨hlive, hload, hlock⟩ := hc.control.swapOut rp a herrand
  have hrp0 : rp ≠ 0 := by
    rintro rfl
    exact absurd (hc.control.system.2.2.symm.trans hload) (by decide)
  have hcopy : (s.table.errand rp).isCopy = false := by
    by_contra hcp
    obtain ⟨rip, a2, he⟩ := Errand.exists_of_isCopy (Bool.eq_true_of_not_eq_false hcp)
    exact absurd ((hc.control.copying rp rip a2 he).1.symm.trans hload) (by decide)
  -- the victim is still in core and locked
  have hin : s.table.InCore rp := ⟨hrp0, Or.inl hlive, hcopy, Or.inr hlock⟩
  obtain ⟨hs', ht⟩ := xswapLeave_spec hs hc (fun _ => hin) h
  refine ⟨hs', ?_⟩
  have hn := Next.swapOutDone herrand
  convert hn using 1
  rw [Sys.table_setCtx, ht]
  refine Table.ext rfl (funext fun q => ?_) (funext fun q => ?_) rfl rfl
  · by_cases hq : q = rp
    · simp [Table.put, hq]
    · by_cases hq0 : q = 0 <;> simp [Table.put, hq, hq0, hrp0.symm]
  · by_cases hq : q = rp
    · simp [Table.put, hq, hrp0]
    · by_cases hq0 : q = 0 <;> simp [Table.put, hq, hq0, hrp0.symm, Ctx.errand]

/-- The child that `newproc` wrote out and its parent go their own ways. -/
theorem newprocDone_spec {rip rpp : Slot} {ph : Phase} (hs : s.Ok) (hc : Custody s.table)
    (hctx : s.ctx rpp = .newprocSwap rip a ph) (h : newprocDone rip rpp a s = some s') :
    s'.Ok ∧ Next s.table s'.table := by
  have herrand : s.table.errand rpp = .copy rip (some a) := by simp [hctx, Ctx.errand]
  have hidle := (hc.control.copying rpp rip _ herrand).2.1
  have hlive := hc.control.busy rpp (by rw [herrand]; simp)
  have hne : rip ≠ rpp := by
    rintro rfl
    exact absurd (hidle.symm.trans hlive) (by decide)
  have hrpp0 : rpp ≠ 0 := by
    rintro rfl
    simpa [hctx, Ctx.isSched] using hs.sched 0
  have hrip : s.table.errand rip = .none := by
    by_contra hb
    exact absurd (hidle.symm.trans (hc.control.busy rip hb)) (by decide)
  unfold newprocDone at h
  obtain ⟨s₁, h₁, h⟩ := Option.bind_eq_some_iff.mp h
  obtain ⟨hs₁, ht⟩ := xswapLeave_spec hs hc (by simp) h₁
  obtain rfl := Option.some.inj h
  have hidle₁ : (s₁.proc rip).p_stat.kind = .idle := by
    have himg : s₁.table.img rip = s.table.img rip := by simp [ht, hne]
    exact (congrArg Image.kind himg).trans hidle
  refine ⟨?_, ?_⟩
  · refine ((hs₁.setProc ?_).setProc ?_).setCtx ?_
    · exact hs₁.sleepers rpp
    · -- an idle parent does not sleep
      intro hw
      simp only [Sys.setProc, update_of_ne hne] at hw
      exact absurd (hidle₁.symm.trans (PStat.kind_of_asleep (hs₁.sleepers rip hw))) (by decide)
    · simpa [Ctx.isSched] using hrpp0
  · have hn := Next.copyDone herrand
    convert hn using 1
    have hripimg : (s₁.proc rip).image = s.table.img rip := by
      rw [← Sys.table_img, ht]
      simp [hne]
    have hrppimg : (s₁.proc rpp).image =
        { s.table.img rpp with addr := a, sload := false, slock := false } := by
      rw [← Sys.table_img, ht]
      simp
    have himg : ∀ q, q ≠ rip → q ≠ rpp → (s₁.proc q).image = s.table.img q := by
      intro q hq hq'
      rw [← Sys.table_img, ht]
      simp [hq']
    have hctx₁ : ∀ q, (s₁.ctx q).errand = s.table.errand q := by
      intro q
      rw [← Sys.table_errand, ht]
    have hnew : { s.table.img rip with kind := .live } =
        { (s₁.proc rip).image with kind := .live } := by
      rw [hripimg]
    -- the two entries are the ones that change
    refine Table.ext rfl (funext fun q => ?_) (funext fun q => ?_) ?_ ?_
    · rw [hnew]
      by_cases hq : q = rip
      · simp [Table.put, Sys.setProc, Sys.setCtx, hq, hne, Proc.image]
      · by_cases hq' : q = rpp
        · simpa [Table.put, Sys.setProc, Sys.setCtx, hq', hne.symm, Proc.image] using hrppimg
        · simpa [Table.put, Sys.setProc, Sys.setCtx, hq, hq'] using himg q hq hq'
    · by_cases hq : q = rip
      · simpa [Table.put, Sys.setProc, Sys.setCtx, hq, hne] using (hctx₁ rip).trans hrip
      · by_cases hq' : q = rpp
        · simp [Table.put, Sys.setProc, Sys.setCtx, hq', hne.symm, Ctx.errand]
        · simpa [Table.put, Sys.setProc, Sys.setCtx, hq, hq'] using hctx₁ q
    · have hcore : s₁.table.core = s.table.core := by
        rw [ht]
        rfl
      exact hcore
    · have hswap : s₁.table.swap = s.table.swap := by rw [ht]
      exact hswap

end

/-! ## Steps -/

section

variable {s s' : Sys}

/-- The state in which process 0, resumed, gets to `loop` of `sched`. -/
def toLoop (s : Sys) : Option Sys :=
  match s.ctx 0 with
  | .sched => some s
  | .schedIn p1 a .io => if s.swbuf.b_done then schedInDone p1 a s else none
  | .schedOut rp a .io => if s.swbuf.b_done then xswapLeave rp true a s else none
  | _ => none

/-- `sched`, if it gets to `loop`, does not set about swapping out a child that sleeps on
`&swapmap` in `newproc`. -/
def SparesWaiting (s : Sys) : Prop :=
  ∀ s₁, toLoop s = some s₁ → ∀ rp, swapsOut s₁ = some rp → ∀ rip, s₁.ctx rp ≠ .newprocWait rip

/-- A process that `swtch` may choose is runnable and in core. -/
theorem runnable_spec {p : Slot} (h : runnable s p = true) :
    (s.proc p).p_stat = .srun ∧ (s.proc p).p_flag.sload = true := by
  simpa [runnable] using h

theorem dispatch_quiet (p : Slot) (s : Sys) : Quiet s (dispatch p s) :=
  Quiet.setProc p (by simp [Proc.image]) fun hs => hs.sleepers p

/-- The clock only changes `p_time`. -/
theorem agePages_quiet (s : Sys) : Quiet s (agePages s) := by
  have hage : ∀ r : Proc, (agePage r).image = r.image ∧ (agePage r).p_wchan = r.p_wchan ∧
      (agePage r).p_stat = r.p_stat := by
    intro r
    unfold agePage
    split <;> exact ⟨rfl, rfl, rfl⟩
  refine ⟨?_, fun hs => ⟨hs.coremap, hs.swapmap, fun p => ?_, hs.sched⟩⟩
  · exact Table.ext rfl (funext fun p => (hage (s.proc p)).1) rfl rfl rfl
  · simp only [agePages]
    rw [(hage _).2.1, (hage _).2.2]
    exact hs.sleepers p

/-- Resuming a process makes the transitions of the routine it stands in. -/
theorem continueCtx_spec {p : Slot} (hs : s.Ok) (hc : Custody s.table)
    (hrun : (s.proc p).p_stat = .srun) (hload : (s.proc p).p_flag.sload = true)
    (hok : p = 0 → SparesWaiting s)
    (h : continueCtx p s = some s') : s'.Ok ∧ ReflTransGen Next s.table s'.table := by
  have hlive : (s.proc p).p_stat.kind = .live := by rw [hrun]; rfl
  have hsched := hs.sched p
  -- sleeping again for the end of a transfer
  have hagain : (sleep .swbuf PSWP p s).Ok ∧
      ReflTransGen Next s.table (sleep .swbuf PSWP p s).table := by
    have hsl := sleep_quiet .swbuf PSWP (p := p) hs hlive
    exact ⟨hsl.ok hs, by rw [hsl.table]⟩
  -- going on to the other sleep of `swap`
  have hstay : ∀ {e : Errand Slot}, s'.Ok →
      s'.table = { s.table with errand := update s.table.errand p e } → s.table.errand p = e →
      s'.Ok ∧ ReflTransGen Next s.table s'.table := by
    rintro e hs' ht rfl
    rw [update_eq_self] at ht
    exact ⟨hs', by rw [ht]⟩
  unfold continueCtx at h
  split at h
  · simp at h
  · next hctx =>
    obtain rfl := Option.some.inj h
    have h0 : p ≠ 0 := by simpa [hctx, Ctx.isSched] using hsched
    obtain ⟨hs', hstep⟩ := waitScan_spec (l := List.finRange NPROC) (b := true) hs hlive h0
      (by simp [hctx, Ctx.errand])
    exact ⟨hs', hstep.to_reflTransGen⟩
  · next c f hctx => exact (waitDone_spec hs hc hctx h).imp_right ReflTransGen.single
  · next a hctx => exact (exitDone_spec hs hc hrun hload hctx h).imp_right ReflTransGen.single
  · next rip hctx =>
    have h0 : p ≠ 0 := by simpa [hctx, Ctx.isSched] using hsched
    have hself : s.setCtx p (.newprocWait rip) = s := by rw [← hctx, Sys.setCtx_self]
    have hstep := newprocSwap_spec hs hlive h0 (by rwa [hself]) h
    rw [hself] at hstep
    exact hstep.imp_right ReflGen.to_reflTransGen
  · next rip a2 hctx =>
    have h0 : p ≠ 0 := by simpa [hctx, Ctx.isSched] using hsched
    obtain ⟨hs', ht⟩ := swapEnter_spec (e := .copy rip (some a2)) hs hlive (fun _ => rfl)
      (fun _ => by simp [Ctx.isSched, h0]) h
    exact hstay hs' ht (by simp [hctx, Ctx.errand])
  · next rip a2 hctx =>
    unfold swapAwait at h
    split at h
    · exact (newprocDone_spec hs hc hctx h).imp_right ReflTransGen.single
    · obtain rfl := Option.some.inj h
      exact hagain
  · next hctx =>
    obtain rfl : p = 0 := by simpa [hctx, Ctx.isSched] using hsched
    have hself : s.setCtx 0 .sched = s := by rw [← hctx, Sys.setCtx_self]
    have hstep := sched_spec hs (by rwa [hself]) (hok rfl s (by simp [toLoop, hctx])) h
    rw [hself] at hstep
    exact hstep.imp_right ReflGen.to_reflTransGen
  · next p1 a hctx =>
    obtain rfl : p = 0 := by simpa [hctx, Ctx.isSched] using hsched
    obtain ⟨hs', ht⟩ := swapEnter_spec (e := .swapIn p1 a) hs hlive (fun _ => rfl)
      (fun _ => by simp [Ctx.isSched]) h
    exact hstay hs' ht (by simp [hctx, Ctx.errand])
  · next p1 a hctx =>
    obtain rfl : p = 0 := by simpa [hctx, Ctx.isSched] using hsched
    unfold swapAwait at h
    split at h
    · next hdone =>
      obtain ⟨s₁, h₁, h⟩ := Option.bind_eq_some_iff.mp h
      obtain ⟨hs₁, hn⟩ := schedInDone_spec hs hc hctx h₁
      obtain ⟨hs', hstep⟩ := sched_spec hs₁ (hc.next hn)
        (hok rfl s₁ (by simp [toLoop, hctx, hdone, h₁])) h
      exact ⟨hs', ReflTransGen.head hn hstep.to_reflTransGen⟩
    · obtain rfl := Option.some.inj h
      exact hagain
  · next rp a hctx =>
    obtain rfl : p = 0 := by simpa [hctx, Ctx.isSched] using hsched
    obtain ⟨hs', ht⟩ := swapEnter_spec (e := .swapOut rp a) hs hlive (fun _ => rfl)
      (fun _ => by simp [Ctx.isSched]) h
    exact hstay hs' ht (by simp [hctx, Ctx.errand])
  · next rp a hctx =>
    obtain rfl : p = 0 := by simpa [hctx, Ctx.isSched] using hsched
    unfold swapAwait at h
    split at h
    · next hdone =>
      obtain ⟨s₁, h₁, h⟩ := Option.bind_eq_some_iff.mp h
      obtain ⟨hs₁, hn⟩ := schedOutDone_spec hs hc hctx h₁
      obtain ⟨hs', hstep⟩ := sched_spec hs₁ (hc.next hn)
        (hok rfl s₁ (by simp [toLoop, hctx, hdone, h₁])) h
      exact ⟨hs', ReflTransGen.head hn hstep.to_reflTransGen⟩
    · obtain rfl := Option.some.inj h
      exact hagain

/-- Every step of the kernel makes transitions of `Next`. -/
theorem step_spec {act : Act} (hs : s.Ok) (hc : Custody s.table)
    (hok : act = .resume 0 → SparesWaiting (dispatch 0 s)) (h : step s act = some s') :
    s'.Ok ∧ ReflTransGen Next s.table s'.table := by
  have hquiet : ∀ {s₁}, Quiet s s₁ → s₁.Ok ∧ ReflTransGen Next s.table s₁.table :=
    fun hq => ⟨hq.ok hs, by rw [hq.table]⟩
  -- a process that runs its own code is not the scheduler
  have huser : ∀ {p}, s.ctx p = .user → p ≠ 0 := by
    intro p hctx
    have hsched := hs.sched p
    simpa [hctx, Ctx.isSched] using hsched
  cases act with
  | resume p =>
    simp only [step] at h
    split at h
    · next hrun =>
      obtain ⟨hst, hload⟩ := runnable_spec hrun
      have hq := dispatch_quiet p s
      rw [← hq.table]
      refine continueCtx_spec (hq.ok hs) (by rwa [hq.table]) ?_ ?_ (fun hp => ?_) h
      · simpa [dispatch, Sys.setProc] using hst
      · simpa [dispatch, Sys.setProc] using hload
      · subst hp
        exact hok rfl
    · simp at h
  | pause p n pri =>
    simp only [step] at h
    split at h
    · next hcond =>
      obtain rfl := Option.some.inj h
      exact hquiet (sleep_quiet _ _ hs (by rw [(runnable_spec hcond.1).1]; rfl))
    · simp at h
  | fork p =>
    simp only [step] at h
    split at h
    · next hcond =>
      obtain ⟨hst, hload⟩ := runnable_spec hcond.1
      unfold fork at h
      split at h
      · obtain rfl := Option.some.inj h
        exact hquiet (Quiet.refl s)
      · exact newproc_spec hs hc hst hload (by rw [hcond.2]; rfl) (Or.inl (huser hcond.2)) h
    · simp at h
  | exit p =>
    simp only [step] at h
    split at h
    · next hcond =>
      obtain ⟨hs', hn⟩ := exit_spec hs hc (runnable_spec hcond.1).1 (huser hcond.2)
        (by rw [hcond.2]; rfl) h
      exact ⟨hs', ReflTransGen.single hn⟩
    · simp at h
  | wait p =>
    simp only [step] at h
    split at h
    · next hcond =>
      obtain rfl := Option.some.inj h
      obtain ⟨hs', hstep⟩ := waitScan_spec (q := p) (l := List.finRange NPROC) (b := false) hs
        (by simp [Proc.image, (runnable_spec hcond.1).1]) (huser hcond.2)
        (by simp [hcond.2, Ctx.errand])
      exact ⟨hs', hstep.to_reflTransGen⟩
    · simp at h
  | abandon p =>
    simp only [step] at h
    split at h
    · next hcond =>
      obtain rfl := Option.some.inj h
      have h0 : p ≠ 0 := by
        have hsched := hs.sched p
        simpa [hcond.2, Ctx.isSched] using hsched
      obtain ⟨hs', ht⟩ := setCtx_idle (k := .user) hs h0 (by simp [hcond.2, Ctx.errand]) rfl rfl
      exact ⟨hs', by rw [ht]⟩
    · simp at h
  | wakeup n =>
    obtain rfl := Option.some.inj h
    exact hquiet (wakeup_quiet _ hs)
  | psignal p =>
    simp only [step] at h
    obtain rfl := Option.some.inj h
    split
    · next hst => exact hquiet (setrun_quiet hs (by rw [hst]; rfl))
    · exact hquiet (Quiet.refl s)
  | clock =>
    simp only [step] at h
    have hq := agePages_quiet s
    generalize agePages s = s₁ at h hq
    obtain rfl := Option.some.inj h
    split
    · have hf := Quiet.flags s₁ s₁.swbuf s₁.mpid 0 s₁.runout
      have hw := wakeup_quiet .runin (hf.ok (hq.ok hs))
      exact hquiet ((hq.trans hf).trans hw)
    · exact hquiet hq
  | iodone =>
    simp only [step] at h
    split at h
    · obtain rfl := Option.some.inj h
      have hq := Quiet.flags s { s.swbuf with b_done := true, b_wanted := false } s.mpid s.runin
        s.runout
      exact hquiet (hq.trans (wakeup_quiet _ (hq.ok hs)))
    · simp at h

end

end UnixV6
