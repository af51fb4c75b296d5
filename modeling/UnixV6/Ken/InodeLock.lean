import UnixV6.Ken.InodeIdentity

/-!
# The lock of an in-core inode

Who has locked an inode, by `iget`, `plock`, the `iput` of a last reference or `update`, has it
alone until it unlocks it, in every run in which `iput` is called only when no other process has
the inode locked.
-/

open Function

namespace UnixV6

/-- The process that takes a step. -/
def InodeAct.actor {π κ : Type} : InodeAct π κ → π
  | .iget p _ _ _ => p
  | .iput p _ => p
  | .plock p _ => p
  | .prele p _ => p
  | .update p => p
  | .share p _ _ => p
  | .modify p _ _ _ _ => p
  | .run p _ => p
  | .abandon p => p

/-- A call of `iput`. -/
def InodeAct.isIput {π κ : Type} : InodeAct π κ → Bool
  | .iput _ _ => true
  | _ => false

namespace InodeSys

variable {π κ : Type} {M : MountTable κ} {s s' : InodeSys π κ} {p q : π} {k : κ} {x : InodePtr}

/-- The process has acquired the lock of the slot and not released it. -/
def Owns (s : InodeSys π κ) (p : π) (x : InodePtr) : Prop :=
  (∃ k, s.locked p k = true ∧ s.ref k = some x) ∨ (s.pc p).updating = some x

/-- One process has a lock at a time, and then the bit is set. -/
structure Excl (s : InodeSys π κ) : Prop where
  single : ∀ x p q, s.Owns p x → s.Owns q x → p = q
  held : ∀ x p, s.Owns p x → (s.inode x).ilock = true
  /-- `update` holds a lock by no other way. -/
  upd : ∀ p x, (s.pc p).updating = some x → ∀ k, s.locked p k = true → s.ref k ≠ some x

/-! ## What a step leaves alone -/

/-- `p` has moved and changed its locks, and the holder `k`. -/
structure Frame (s s' : InodeSys π κ) (p : π) (k : κ) : Prop where
  pc : ∀ q, q ≠ p → s'.pc q = s.pc q
  locked : ∀ q, q ≠ p → s'.locked q = s.locked q
  ref : ∀ j, j ≠ k → s'.ref j = s.ref j

variable [DecidableEq π] [DecidableEq κ]

omit [DecidableEq κ] in
/-- A process goes on. -/
theorem frame_goto {s₁ : InodeSys π κ} {c : IgetPc κ} (h : Frame s s₁ p k) :
    Frame s (s₁.goto p c) p k := by
  refine ⟨fun q hq => ?_, h.locked, h.ref⟩
  simp only [goto, update_of_ne hq]
  exact h.pc q hq

omit [DecidableEq π] [DecidableEq κ] in
/-- An inode is changed in the table. -/
theorem frame_inode (s : InodeSys π κ) (p : π) (k : κ) (x : InodePtr) (i : Inode) :
    Frame s (s.setInode x i) p k :=
  ⟨fun _ _ => rfl, fun _ _ => rfl, fun _ _ => rfl⟩

/-- A reference is given up. -/
theorem frame_clear {s₁ : InodeSys π κ} (h : Frame s s₁ p k) :
    Frame s ((s₁.unlocked p x).setRef k none) p k := by
  refine ⟨h.pc, fun q hq => ?_, fun j hj => ?_⟩
  · simp only [setRef, unlocked, update_of_ne hq]
    exact h.locked q hq
  · simp only [setRef, unlocked, update_of_ne hj]
    exact h.ref j hj

/-- A lock is taken. -/
theorem frame_lock {s₁ : InodeSys π κ} (h : Frame s s₁ p k) : Frame s (s₁.setLocked p k) p k := by
  refine ⟨h.pc, fun q hq => ?_, h.ref⟩
  simp only [setLocked, update_of_ne hq]
  exact h.locked q hq

/-- A reference is taken. -/
theorem frame_take {s₁ : InodeSys π κ} (h : Frame s s₁ p k) : Frame s (s₁.take p k x) p k := by
  refine ⟨h.pc, fun q hq => ?_, fun j hj => ?_⟩
  · simp only [take, setLocked, update_of_ne hq]
    exact h.locked q hq
  · simp only [take, setLocked, setRef, update_of_ne hj]
    exact h.ref j hj

/-- `iput` goes on to write the inode. -/
theorem frame_iputUpdat {s₁ : InodeSys π κ} (h : Frame s s₁ p k) :
    Frame s (s₁.iputUpdat M p k x) p k := by
  unfold iputUpdat
  split
  · exact frame_goto h
  · exact frame_goto (frame_clear ⟨h.pc, h.locked, h.ref⟩)

theorem frame_iput : Frame s (s.iput M p k x) p k := by
  unfold iput
  dsimp only
  split
  · split
    · exact frame_goto (frame_lock (frame_inode ..))
    · exact frame_iputUpdat (frame_lock (frame_inode ..))
  · exact frame_goto (frame_clear (frame_inode ..))

/-- `iget` concerns one reference of one process. -/
theorem frame_iget {name : ℤ × ℤ} {dev ino : ℤ} (hs : s.iget M p k name dev ino = some s') :
    Frame s s' p k := by
  have hrefl : Frame s s p k := ⟨fun _ _ => rfl, fun _ _ => rfl, fun _ _ => rfl⟩
  unfold iget at hs
  dsimp only at hs
  split at hs
  · split at hs
    · cases hs
      exact frame_goto (frame_inode ..)
    · split at hs
      · split at hs <;> cases hs
        exact frame_goto hrefl
      · cases hs
        exact frame_goto (frame_take (frame_inode ..))
  · split at hs <;> cases hs
    · exact frame_goto hrefl
    · exact frame_goto (frame_take (frame_inode ..))

theorem frame_plock : Frame s (s.plock p k x) p k := by
  unfold plock
  split
  · exact frame_goto (frame_inode ..)
  · exact frame_goto (frame_lock (frame_inode ..))

/-! ## Steps and ownership -/

/-- What the other processes see of a step of `p`: nothing that concerns their locks. -/
structure Others (s s' : InodeSys π κ) (p : π) : Prop where
  pc : ∀ q, q ≠ p → s'.pc q = s.pc q
  locked : ∀ q, q ≠ p → s'.locked q = s.locked q
  ref : ∀ q j, q ≠ p → s.locked q j = true → s'.ref j = s.ref j

omit [DecidableEq π] [DecidableEq κ] in
/-- A reference that nobody else has locked does not concern the others. -/
theorem Frame.others (f : Frame s s' p k) (hk : ∀ q, q ≠ p → s.locked q k = false) :
    Others s s' p := by
  refine ⟨f.pc, f.locked, fun q j hq hj => f.ref j ?_⟩
  rintro rfl
  rw [hk q hq] at hj
  cases hj

omit [DecidableEq π] [DecidableEq κ] in
/-- A process that does not act owns what it owned. -/
theorem Others.owns_iff (o : Others s s' p) (hq : q ≠ p) (y : InodePtr) :
    s'.Owns q y ↔ s.Owns q y := by
  unfold Owns
  rw [o.pc q hq, o.locked q hq]
  refine or_congr (exists_congr fun j => and_congr_right fun hj => ?_) Iff.rfl
  rw [o.ref q j hq hj]

omit [DecidableEq κ] in
/-- The process `p` has acted on the slot `x`. -/
theorem Excl.act (e : s.Excl) (o : Others s s' p)
    (hinode : ∀ y, y ≠ x → (s'.inode y).ilock = (s.inode y).ilock)
    (hmine : ∀ y, y ≠ x → s'.Owns p y → s.Owns p y)
    (hx : s'.Owns p x → (∀ q, q ≠ p → ¬ s.Owns q x) ∧ (s'.inode x).ilock = true)
    (hothers : ∀ q, q ≠ p → s.Owns q x → (s'.inode x).ilock = true)
    (hupd : ∀ y, (s'.pc p).updating = some y → ∀ j, s'.locked p j = true → s'.ref j ≠ some y) :
    s'.Excl := by
  have hother : ∀ q, q ≠ p → ∀ y, s'.Owns q y ↔ s.Owns q y := fun q hq => o.owns_iff hq
  -- what `p` owns now, no other process does
  have hp : ∀ q y, q ≠ p → s'.Owns p y → ¬ s'.Owns q y := by
    intro q y hq hpy hqy
    rw [hother q hq] at hqy
    by_cases hy : y = x
    · subst hy
      exact (hx hpy).1 q hq hqy
    · exact hq (e.single y q p hqy (hmine y hy hpy))
  refine ⟨fun y r q hr hq => ?_, fun y q hq => ?_, fun q y hq j hj => ?_⟩
  · by_cases hrp : r = p
    · subst hrp
      by_contra hne
      exact hp q y (Ne.symm hne) hr hq
    · by_cases hqp : q = p
      · subst hqp
        exact absurd hr (hp r y hrp hq)
      · rw [hother r hrp] at hr
        rw [hother q hqp] at hq
        exact e.single y r q hr hq
  · by_cases hqp : q = p
    · subst hqp
      by_cases hy : y = x
      · subst hy
        exact (hx hq).2
      · rw [hinode y hy]
        exact e.held y q (hmine y hy hq)
    · rw [hother q hqp] at hq
      by_cases hy : y = x
      · subst hy
        exact hothers q hqp hq
      · rw [hinode y hy]
        exact e.held y q hq
  · by_cases hqp : q = p
    · subst hqp
      exact hupd y hq j hj
    · rw [o.pc q hqp] at hq
      rw [o.locked q hqp] at hj
      rw [o.ref q j hqp hj]
      exact e.upd q y hq j hj

omit [DecidableEq π] [DecidableEq κ] in
/-- No lock changes hands. -/
theorem Excl.quiet (e : s.Excl) (hlocked : s'.locked = s.locked)
    (href : ∀ q j, s.locked q j = true → s'.ref j = s.ref j)
    (hinode : ∀ y, (s'.inode y).ilock = (s.inode y).ilock)
    (hpc : ∀ q, (s'.pc q).updating = none ∨ (s'.pc q).updating = (s.pc q).updating) : s'.Excl := by
  have howns : ∀ q y, s'.Owns q y → s.Owns q y := by
    intro q y hq
    rcases hq with ⟨j, hj, hy⟩ | hupd
    · rw [hlocked] at hj
      rw [href q j hj] at hy
      exact .inl ⟨j, hj, hy⟩
    · right
      rcases hpc q with hnone | hsame
      · rw [hnone] at hupd
        cases hupd
      · rwa [← hsame]
  refine ⟨fun y r q hr hq => e.single y r q (howns r y hr) (howns q y hq), fun y q hq => ?_,
    fun q y hq j hj => ?_⟩
  · rw [hinode]
    exact e.held y q (howns q y hq)
  · rw [hlocked] at hj
    rw [href q j hj]
    rcases hpc q with hnone | hsame
    · rw [hnone] at hq
      cases hq
    · rw [hsame] at hq
      exact e.upd q y hq j hj

omit [DecidableEq κ] in
/-- What a process is writing, after one of them went on. -/
theorem pc_goto {c : IgetPc κ} (hc : c.updating = none ∨ c.updating = (s.pc p).updating) (q : π) :
    ((s.goto p c).pc q).updating = none ∨
      ((s.goto p c).pc q).updating = (s.pc q).updating := by
  by_cases hq : q = p
  · subst hq
    simpa only [goto, update_self] using hc
  · simp only [goto, update_of_ne hq, or_true]

omit [DecidableEq π] [DecidableEq κ] in
/-- The lock bits, after an inode has been changed but for its lock. -/
theorem ilock_setInode {i : Inode} (hi : i.ilock = (s.inode x).ilock) (y : InodePtr) :
    ((s.setInode x i).inode y).ilock = (s.inode y).ilock := by
  by_cases hy : y = x
  · subst hy
    simp only [setInode, update_self, hi]
  · simp only [setInode, update_of_ne hy]

omit [DecidableEq π] [DecidableEq κ] in
/-- Nobody owns an unlocked slot. -/
theorem Excl.not_owns (e : s.Excl) (hlock : (s.inode x).ilock = false) (q : π) : ¬ s.Owns q x := by
  intro howns
  have hheld := e.held x q howns
  rw [hlock] at hheld
  cases hheld

variable [Fintype κ]

omit [DecidableEq π] [DecidableEq κ] in
/-- Nobody owns a free slot. -/
theorem Inv.refs_of_owns (h : s.Inv M) (howns : s.Owns p x) : s.refs x ≠ 0 := by
  rcases howns with ⟨j, -, hj⟩ | hupd
  · exact refs_pos hj
  · have hplaced := h.placed p
    cases hpc : s.pc p <;> rw [hpc] at hupd hplaced <;> cases hupd
    · exact hplaced.1
    · exact hplaced

omit [Fintype κ] in
/-- A slot that nobody owns is taken by `iget`. -/
theorem Excl.take {c : IgetPc κ} {i : Inode} (e : s.Excl) (hk : s.ref k = none)
    (hpin : ∀ q, s.locked q k = false) (hnot : ∀ q, ¬ s.Owns q x) (hi : i.ilock = true)
    (hc : c.updating = none) : (((s.setInode x i).take p k x).goto p c).Excl := by
  refine e.act (x := x) ((frame_goto (frame_take (frame_inode ..))).others fun q _ => hpin q)
    (fun y hy => ?_) (fun y hy hown => ?_) (fun _ => ⟨fun q _ => hnot q, ?_⟩)
    (fun q _ hq => absurd hq (hnot q)) (fun y hy => ?_)
  · simp only [goto, InodeSys.take, setLocked, setRef, setInode, update_of_ne hy]
  · rcases hown with ⟨j, hj, hjy⟩ | hupd
    · left
      have hne : j ≠ k := by
        rintro rfl
        simp only [goto, InodeSys.take, setLocked, setRef, update_self] at hjy
        exact hy (Option.some.inj hjy).symm
      simp only [goto, InodeSys.take, setLocked, setRef, setInode, update_self,
        update_of_ne hne] at hj hjy
      exact ⟨j, hj, hjy⟩
    · simp only [goto, update_self] at hupd
      rw [hc] at hupd
      cases hupd
  · simp only [goto, InodeSys.take, setLocked, setRef, setInode, update_self]
    exact hi
  · simp only [goto, update_self] at hy
    rw [hc] at hy
    cases hy

omit [Fintype κ] in
/-- A slot that nobody owns is locked through a reference. -/
theorem Excl.lock {c : IgetPc κ} (e : s.Excl) (hk : s.ref k = some x)
    (hnot : ∀ q, q ≠ p → ¬ s.Owns q x) (hc : c.updating = none) :
    (((s.setInode x { s.inode x with ilock := true }).setLocked p k).goto p c).Excl := by
  -- a lock of another process through `k` would own `x`
  have hpin : ∀ q, q ≠ p → s.locked q k = false := by
    intro q hq
    by_contra hlock
    exact hnot q hq (.inl ⟨k, by simpa using hlock, hk⟩)
  refine e.act (x := x) ((frame_goto (frame_lock (frame_inode ..))).others hpin)
    (fun y hy => ?_) (fun y hy hown => ?_) (fun _ => ⟨hnot, ?_⟩)
    (fun q hq hqx => absurd hqx (hnot q hq)) (fun y hy => ?_)
  · simp only [goto, setLocked, setInode, update_of_ne hy]
  · rcases hown with ⟨j, hj, hjy⟩ | hupd
    · left
      change s.ref j = some y at hjy
      have hne : j ≠ k := by
        rintro rfl
        rw [hk] at hjy
        exact hy (Option.some.inj hjy).symm
      simp only [goto, setLocked, setInode, update_self, update_of_ne hne] at hj
      exact ⟨j, hj, hjy⟩
    · simp only [goto, update_self] at hupd
      rw [hc] at hupd
      cases hupd
  · simp only [goto, setLocked, setInode, update_self]
  · simp only [goto, update_self] at hy
    rw [hc] at hy
    cases hy

omit [Fintype κ] [DecidableEq κ] in
/-- A slot that nobody else owns is unlocked, with the reference kept or given up. -/
theorem Excl.release {s₁ : InodeSys π κ} (e : s.Excl) (f : Frame s s₁ p k)
    (hk : s.ref k = some x) (hnot : ∀ q, q ≠ p → ¬ s.Owns q x)
    (hinode : ∀ y, y ≠ x → (s₁.inode y).ilock = (s.inode y).ilock)
    (hmine : ∀ j, s₁.locked p j = true → s.locked p j = true ∧ s.ref j ≠ some x)
    (href : s₁.ref k = none ∨ s₁.ref k = some x) (hupd : (s₁.pc p).updating = none) : s₁.Excl := by
  have hpin : ∀ q, q ≠ p → s.locked q k = false := by
    intro q hq
    by_contra hlock
    exact hnot q hq (.inl ⟨k, by simpa using hlock, hk⟩)
  have hown : ∀ y, s₁.Owns p y → y ≠ x ∧ s.Owns p y := by
    intro y hy
    rcases hy with ⟨j, hj, hjy⟩ | hbad
    · obtain ⟨hold, hne⟩ := hmine j hj
      have hjk : j ≠ k := by
        rintro rfl
        exact hne hk
      rw [f.ref j hjk] at hjy
      refine ⟨?_, .inl ⟨j, hold, hjy⟩⟩
      rintro rfl
      exact hne hjy
    · rw [hupd] at hbad
      cases hbad
  refine e.act (f.others hpin) hinode (fun y _ hy => (hown y hy).2) (fun hx => absurd rfl (hown x hx).1)
    (fun q hq hqx => absurd hqx (hnot q hq)) (fun y hy => ?_)
  rw [hupd] at hy
  cases hy

/-! ## The routines -/

omit [DecidableEq π] [DecidableEq κ] in
/-- Without a reference there is nothing to be locked. -/
theorem Inv.unlocked_of_none (h : s.Inv M) (hk : s.ref k = none) (q : π) : s.locked q k = false := by
  by_contra hlock
  exact h.pinned q k (by simpa using hlock) hk

/-- `iget` locks an inode that nobody else has locked. -/
theorem Excl.iget {name : ℤ × ℤ} {dev ino : ℤ} (e : s.Excl) (h : s.Inv M) (hk : s.ref k = none)
    (hs : s.iget M p k name dev ino = some s') : s'.Excl := by
  have hpin := h.unlocked_of_none hk
  unfold InodeSys.iget at hs
  dsimp only at hs
  split at hs
  case h_1 x hx =>
    split at hs
    case isTrue =>
      cases hs
      exact e.quiet rfl (fun _ _ _ => rfl)
        (ilock_setInode (i := { s.inode x with iwant := true }) rfl) (pc_goto (.inl rfl))
    case isFalse hlock =>
      split at hs
      case isTrue =>
        split at hs <;> cases hs
        exact e.quiet rfl (fun _ _ _ => rfl) (fun _ => rfl) (pc_goto (.inl rfl))
      case isFalse =>
        cases hs
        exact e.take hk hpin (e.not_owns (by simpa using hlock)) rfl rfl
  case h_2 =>
    split at hs
    case h_1 =>
      cases hs
      exact e.quiet rfl (fun _ _ _ => rfl) (fun _ => rfl) (pc_goto (.inl rfl))
    case h_2 x hx =>
      cases hs
      have hzero := (h.slot x).refs_eq_zero (findFree_some hx)
      exact e.take hk hpin (fun q hq => h.refs_of_owns hq hzero) rfl rfl

omit [Fintype κ] in
/-- The end of `iput` unlocks an inode that nobody else owns. -/
theorem Excl.iputDone (e : s.Excl) (hk : s.ref k = some x) (hnot : ∀ q, q ≠ p → ¬ s.Owns q x) :
    (s.iputDone p k x).Excl := by
  refine e.release (x := x) (p := p) (frame_goto (frame_clear (frame_inode ..))) hk hnot
    (fun y hy => ?_) (fun j hj => unlocked_locked (s := s.setInode x _) hj) (.inl ?_) ?_
  · change (update s.inode x _ y).ilock = _
    rw [update_of_ne hy]
  · exact update_self ..
  · change (update s.pc p _ p).updating = none
    rw [update_self]
    rfl

omit [Fintype κ] in
/-- `iput` goes on to write an inode that nobody else owns. -/
theorem Excl.iputUpdat (e : s.Excl) (hk : s.ref k = some x) (hnot : ∀ q, q ≠ p → ¬ s.Owns q x) :
    (s.iputUpdat M p k x).Excl := by
  unfold InodeSys.iputUpdat
  split
  · exact e.quiet rfl (fun _ _ _ => rfl) (fun _ => rfl) (pc_goto (.inl rfl))
  · exact e.iputDone hk hnot

omit [Fintype κ] in
/-- `iput` of an inode that nobody else owns. -/
theorem Excl.iput (e : s.Excl) (hk : s.ref k = some x) (hnot : ∀ q, q ≠ p → ¬ s.Owns q x) :
    (s.iput M p k x).Excl := by
  unfold InodeSys.iput
  dsimp only
  split
  case isTrue =>
    split
    case isTrue => exact e.lock hk hnot rfl
    case isFalse =>
      -- From here the process owns the slot.
      have hlocked := e.lock (c := .idle) hk hnot rfl
      rw [← iputUpdat_goto _ p k x .idle]
      refine hlocked.iputUpdat hk fun q hq hown => hq ?_
      refine hlocked.single x q p hown (.inl ⟨k, ?_, hk⟩)
      simp only [goto, setLocked, update_self]
  case isFalse =>
    refine e.release (x := x) (p := p) (frame_goto (frame_clear (frame_inode ..))) hk hnot
      (fun y hy => ?_) (fun j hj => unlocked_locked (s := s.setInode x _) hj) (.inl ?_) ?_
    · simp only [goto, setRef, unlocked, setInode, update_of_ne hy]
    · simp only [goto, setRef, update_self]
    · simp only [goto, update_self]
      rfl

omit [Fintype κ] in
theorem Excl.plock (e : s.Excl) (hk : s.ref k = some x) : (s.plock p k x).Excl := by
  unfold InodeSys.plock
  split
  case isTrue =>
    exact e.quiet rfl (fun _ _ _ => rfl)
      (ilock_setInode (i := { s.inode x with iwant := true }) rfl) (pc_goto (.inl rfl))
  case isFalse hlock =>
    exact e.lock hk (fun q _ => e.not_owns (by simpa using hlock) q) rfl

omit [Fintype κ] [DecidableEq κ] in
/-- `prele` unlocks an inode that the process has locked. -/
theorem Excl.prele (e : s.Excl) (hp : s.pc p = .idle) (hk : s.ref k = some x)
    (hlock : s.locked p k = true) : ((s.prele x).unlocked p x).Excl := by
  have hnot : ∀ q, q ≠ p → ¬ s.Owns q x := fun q hq hown =>
    hq (e.single x q p hown (.inl ⟨k, hlock, hk⟩))
  refine e.release (x := x) (p := p) (k := k) ⟨fun _ _ => rfl, fun q hq => ?_, fun _ _ => rfl⟩ hk hnot
    (fun y hy => ?_) (fun j hj => unlocked_locked (s := s.prele x) hj) (.inr hk) ?_
  · simp only [unlocked, update_of_ne hq]
    rfl
  · simp only [unlocked, InodeSys.prele, setInode, update_of_ne hy]
  · change (s.pc p).updating = none
    rw [hp]
    rfl

omit [Fintype κ] [DecidableEq κ] in
theorem Excl.scan (e : s.Excl) (p : π) (n : ℕ) : (s.scan M p n).Excl := by
  unfold InodeSys.scan
  split
  case isTrue hn =>
    dsimp only
    split
    case isTrue => exact e.quiet rfl (fun _ _ _ => rfl) (fun _ => rfl) (pc_goto (.inl rfl))
    case isFalse hlock =>
      have hlock' : (s.inode ⟨n, hn⟩).ilock = false := by simpa using hlock
      -- an unlocked inode has no owner
      have hnot := e.not_owns hlock'
      split
      case h_1 dev ino hslot =>
        -- the inode is written: `update` takes the lock
        refine e.act (x := ⟨n, hn⟩) ⟨fun q hq => update_of_ne hq .., fun _ _ => rfl,
          fun _ _ _ _ => rfl⟩ (fun y hy => ?_) (fun y hy hown => ?_) (fun _ => ⟨fun q _ => hnot q, ?_⟩)
          (fun q _ hq => absurd hq (hnot q)) (fun y hy j hj hjy => ?_)
        · simp only [goto, setInode, update_of_ne hy]
        · rcases hown with hlocked | hupd
          · exact .inl hlocked
          · simp only [goto, update_self] at hupd
            exact absurd (Option.some.inj hupd).symm hy
        · simp only [goto, setInode, update_self]
        · simp only [goto, update_self] at hy
          cases hy
          exact hnot p (.inl ⟨j, hj, hjy⟩)
      case h_2 =>
        -- nothing to write: the lock is taken and given back at once
        refine e.quiet rfl (fun _ _ _ => rfl) (fun y => ?_) (pc_goto (.inl rfl))
        by_cases hy : y = ⟨n, hn⟩
        · subst hy
          simp only [goto, InodeSys.prele, setInode, update_self, hlock']
        · simp only [goto, InodeSys.prele, setInode, update_of_ne hy]
  case isFalse => exact e.quiet rfl (fun _ _ _ => rfl) (fun _ => rfl) (pc_goto (.inl rfl))

/-! ## Runs -/

/-- `iput` is called only when no other process has the inode locked, and `i_count` does not
wrap. -/
def OkLock (s : InodeSys π κ) : InodeAct π κ → Prop
  | .iput p k => ∀ x, s.ref k = some x → ∀ q, q ≠ p → ¬ s.Owns q x
  | a => s.Ok a

omit [DecidableEq π] [DecidableEq κ] in
theorem OkLock.ok {a : InodeAct π κ} (h : s.OkLock a) : s.Ok a := by
  cases a with
  | iput p k => exact fun x hx _ q hq hupd => h x hx q hq (.inr hupd)
  | _ => exact h

/-- A process that wakes up finds the inode unlocked, or waits again. -/
theorem Excl.run {error : Bool} (e : s.Excl) (h : s.Inv M) (hs : s.run M p error = some s') :
    s'.Excl := by
  have hplaced := h.placed p
  -- Who is alone with a slot is the only owner.
  have hnot : ∀ k x, s.Alone p k x → ∀ q, q ≠ p → ¬ s.Owns q x := fun k x ha q hq hown =>
    hq (e.single x q p hown (.inl ⟨k, ha.locked, ha.ref⟩))
  unfold InodeSys.run at hs
  generalize hpc : s.pc p = c at hs hplaced
  cases c with
  | idle => cases hs
  | iget k name dev ino => exact e.iget h hplaced.1 hs
  | igetRead k name =>
    obtain ⟨x, ha, -⟩ := hplaced
    dsimp only at hs
    rw [ha.ref] at hs
    cases hs
    cases error with
    | false =>
      exact e.quiet rfl (fun _ _ _ => rfl) (ilock_setInode (i := { s.inode x with
        toDinode := s.dinode (s.inode x).i_dev (s.inode x).i_number }) rfl) (pc_goto (.inl rfl))
    | true => exact e.iput ha.ref (hnot k x ha)
  | plock k =>
    obtain ⟨x, hx, rfl⟩ := Option.map_eq_some_iff.mp hs
    exact e.plock hx
  | itrunc k =>
    obtain ⟨x, ha⟩ := hplaced
    dsimp only at hs
    rw [ha.ref] at hs
    cases hs
    have hlock : (truncated (s.inode x)).ilock = (s.inode x).ilock := by
      unfold truncated
      split <;> rfl
    have htrunc : (s.setInode x (truncated (s.inode x))).Excl :=
      e.quiet rfl (fun _ _ _ => rfl) (ilock_setInode hlock) fun _ => .inr rfl
    exact htrunc.iputUpdat ha.ref (hnot k x ha)
  | iupdat k dev ino =>
    obtain ⟨x, -, rfl⟩ := Option.map_eq_some_iff.mp hs
    exact e.quiet rfl (fun _ _ _ => rfl) (fun _ => rfl) (pc_goto (s := s.iupdatCopy x dev ino)
      (.inl rfl))
  | iupdatWrite k =>
    obtain ⟨x, ha⟩ := hplaced
    dsimp only at hs
    rw [ha.ref] at hs
    cases hs
    exact e.iputDone ha.ref (hnot k x ha)
  | super =>
    cases hs
    exact e.quiet rfl (fun _ _ _ => rfl) (fun _ => rfl) (pc_goto (.inl rfl))
  | scan n =>
    cases hs
    exact e.scan p n
  | updRead x dev ino =>
    cases hs
    refine e.quiet rfl (fun _ _ _ => rfl) (fun _ => rfl) (pc_goto (s := s.iupdatCopy x dev ino)
      (.inr ?_))
    change _ = (s.pc p).updating
    rw [hpc]
    rfl
  | updWrite x =>
    cases hs
    have hown : s.Owns p x := .inr (by rw [hpc]; rfl)
    refine e.act (x := x) ⟨fun q hq => update_of_ne hq .., fun _ _ => rfl, fun _ _ _ _ => rfl⟩
      (fun y hy => ?_) (fun y hy hy' => ?_) (fun hx => ?_)
      (fun q hq hqx => absurd (e.single x q p hqx hown) hq) (fun y hy => ?_)
    · simp only [goto, InodeSys.prele, setInode, update_of_ne hy]
    · rcases hy' with hlocked | hupd
      · exact .inl hlocked
      · simp only [goto, update_self] at hupd
        cases hupd
    · -- `update` has no other lock on the slot.
      rcases hx with ⟨j, hj, hjx⟩ | hupd
      · exact absurd hjx (e.upd p x (by rw [hpc]; rfl) j hj)
      · simp only [goto, update_self] at hupd
        cases hupd
    · simp only [goto, update_self] at hy
      cases hy

/-- Every step keeps the locks exclusive. -/
theorem Excl.step [Fintype π] {a : InodeAct π κ} (e : s.Excl) (h : s.Inv M) (hok : s.OkLock a)
    (hs : s.step M a = some s') : s'.Excl := by
  cases a with
  -- the calls: `iget` and `iput` as above, `plock` and `prele` by the lock's owner
  | iget p k dev ino =>
    obtain ⟨⟨-, hk, -⟩, hs⟩ := Option.ite_none_right_eq_some.mp hs
    exact e.iget h hk hs
  | iput p k =>
    obtain ⟨-, hs⟩ := Option.ite_none_right_eq_some.mp hs
    obtain ⟨x, hx, rfl⟩ := Option.map_eq_some_iff.mp hs
    exact e.iput hx (hok x hx)
  | plock p k =>
    obtain ⟨-, hs⟩ := Option.ite_none_right_eq_some.mp hs
    obtain ⟨x, hx, rfl⟩ := Option.map_eq_some_iff.mp hs
    exact e.plock hx
  | prele p k =>
    obtain ⟨⟨hp, hlock, -⟩, hs⟩ := Option.ite_none_right_eq_some.mp hs
    obtain ⟨x, hx, rfl⟩ := Option.map_eq_some_iff.mp hs
    exact e.prele hp hx hlock
  | update p =>
    obtain ⟨-, hs⟩ := Option.ite_none_right_eq_some.mp hs
    split at hs <;> cases hs
    · exact e
    · exact e.quiet rfl (fun _ _ _ => rfl) (fun _ => rfl) (pc_goto (s := { s with updlock := true })
        (.inl rfl))
  | share p k k' =>
    obtain ⟨⟨-, -, -, hk'⟩, hs⟩ := Option.ite_none_right_eq_some.mp hs
    obtain ⟨x, -, rfl⟩ := Option.map_eq_some_iff.mp hs
    refine e.quiet rfl (fun q j hj => ?_)
      (ilock_setInode (i := { s.inode x with i_count := (s.inode x).i_count + 1 }) rfl) fun _ => .inr rfl
    -- the new reference is not one that anybody has locked
    have hne : j ≠ k' := by
      rintro rfl
      exact h.pinned q j hj hk'
    simp only [setRef, update_of_ne hne]
    rfl
  | modify p k d iupd iacc =>
    obtain ⟨-, hs⟩ := Option.ite_none_right_eq_some.mp hs
    obtain ⟨x, -, rfl⟩ := Option.map_eq_some_iff.mp hs
    exact e.quiet rfl (fun _ _ _ => rfl) (ilock_setInode (i := { s.inode x with
      toDinode := d, iupd := iupd, iacc := iacc }) rfl) fun _ => .inr rfl
  | run p error => exact e.run h hs
  | abandon p =>
    simp only [InodeSys.step] at hs
    split at hs <;> cases hs
    exact e.quiet rfl (fun _ _ _ => rfl) (fun _ => rfl) (pc_goto (.inl rfl))

omit [DecidableEq π] [DecidableEq κ] in
theorem Booted.excl (h : s.Booted M) : s.Excl := by
  have hnone : ∀ p x, ¬ s.Owns p x := by
    rintro p x (⟨j, hj, -⟩ | hupd)
    · rw [h.unlocked] at hj
      cases hj
    · rw [h.idle] at hupd
      cases hupd
  refine ⟨fun x p _ hp => absurd hp (hnone p x), fun x p hp => absurd hp (hnone p x),
    fun p x hupd => ?_⟩
  rw [h.idle] at hupd
  cases hupd

omit [DecidableEq κ] [Fintype κ] in
/-- A process that goes on does not concern the others. -/
theorem others_goto {s₁ : InodeSys π κ} {c : IgetPc κ} (hpc : s₁.pc = s.pc)
    (hlocked : s₁.locked = s.locked) (href : s₁.ref = s.ref) : Others s (s₁.goto p c) p := by
  refine ⟨fun q hq => ?_, fun q _ => ?_, fun q j _ _ => ?_⟩
  · simp only [goto, update_of_ne hq, hpc]
  · exact congrFun hlocked q
  · exact congrFun href j

omit [DecidableEq κ] [Fintype κ] in
theorem others_scan (n : ℕ) : Others s (s.scan M p n) p := by
  unfold scan
  split
  · dsimp only
    split
    · exact others_goto rfl rfl rfl
    · split <;> exact others_goto rfl rfl rfl
  · exact others_goto rfl rfl rfl

omit [Fintype κ] in
theorem plock_ref : (s.plock p k x).ref = s.ref := by
  unfold plock
  split <;> rfl

/-- A step concerns the locks of the process that takes it. -/
theorem Inv.others_run {error : Bool} (h : s.Inv M) (hs : s.run M p error = some s') :
    Others s s' p := by
  have hplaced := h.placed p
  have hpriv := h.priv p
  unfold InodeSys.run at hs
  generalize hpc : s.pc p = c at hs hplaced hpriv
  -- a holder in use is locked by nobody else
  have hown : ∀ k, c.holder = some k → ∀ q, q ≠ p → s.locked q k = false := fun k hk q hq =>
    (hpriv k hk q hq).2.1
  -- by the piece
  cases c with
  | idle => cases hs
  | iget k name dev ino => exact (frame_iget hs).others (hown k rfl)
  | igetRead k name =>
    obtain ⟨x, -, rfl⟩ := Option.map_eq_some_iff.mp hs
    cases error with
    | false => exact others_goto rfl rfl rfl
    | true => exact frame_iput.others (hown k rfl)
  | plock k =>
    obtain ⟨x, -, rfl⟩ := Option.map_eq_some_iff.mp hs
    have f : Frame s (s.plock p k x) p k := frame_plock
    exact ⟨f.pc, f.locked, fun _ _ _ _ => by rw [plock_ref]⟩
  | itrunc k =>
    obtain ⟨x, -, rfl⟩ := Option.map_eq_some_iff.mp hs
    exact (frame_iputUpdat (frame_inode ..)).others (hown k rfl)
  | iupdat k dev ino =>
    obtain ⟨x, -, rfl⟩ := Option.map_eq_some_iff.mp hs
    exact others_goto rfl rfl rfl
  | iupdatWrite k =>
    obtain ⟨x, -, rfl⟩ := Option.map_eq_some_iff.mp hs
    exact (frame_goto (frame_clear (frame_inode ..))).others (hown k rfl)
  | super =>
    cases hs
    exact others_goto rfl rfl rfl
  | scan n =>
    cases hs
    exact others_scan n
  | updRead x dev ino =>
    cases hs
    exact others_goto rfl rfl rfl
  | updWrite x =>
    cases hs
    exact others_goto rfl rfl rfl

/-- A step of one process does not concern the others. -/
theorem Inv.others_step [Fintype π] {a : InodeAct π κ} (h : s.Inv M) (hs : s.step M a = some s') :
    Others s s' a.actor := by
  cases a with
  | iget p k dev ino =>
    obtain ⟨⟨-, hk, -⟩, hs⟩ := Option.ite_none_right_eq_some.mp hs
    exact (frame_iget hs).others fun q _ => h.unlocked_of_none hk q
  | iput p k =>
    obtain ⟨⟨-, -, hused, -⟩, hs⟩ := Option.ite_none_right_eq_some.mp hs
    obtain ⟨x, -, rfl⟩ := Option.map_eq_some_iff.mp hs
    -- the reference given back is locked by nobody else
    refine frame_iput.others fun q hq => ?_
    by_contra hlock
    exact hused ⟨q, hq, .inl (by simpa using hlock)⟩
  | plock p k =>
    obtain ⟨-, hs⟩ := Option.ite_none_right_eq_some.mp hs
    obtain ⟨x, -, rfl⟩ := Option.map_eq_some_iff.mp hs
    have f : Frame s (s.plock p k x) p k := frame_plock
    exact ⟨f.pc, f.locked, fun _ _ _ _ => by rw [plock_ref]⟩
  | prele p k =>
    obtain ⟨-, hs⟩ := Option.ite_none_right_eq_some.mp hs
    obtain ⟨x, -, rfl⟩ := Option.map_eq_some_iff.mp hs
    exact ⟨fun _ _ => rfl, fun q hq => update_of_ne hq .., fun _ _ _ _ => rfl⟩
  | update p =>
    obtain ⟨-, hs⟩ := Option.ite_none_right_eq_some.mp hs
    split at hs <;> cases hs
    · exact ⟨fun _ _ => rfl, fun _ _ => rfl, fun _ _ _ _ => rfl⟩
    · exact others_goto rfl rfl rfl
  | share p k k' =>
    obtain ⟨⟨-, -, -, hk'⟩, hs⟩ := Option.ite_none_right_eq_some.mp hs
    obtain ⟨x, -, rfl⟩ := Option.map_eq_some_iff.mp hs
    refine ⟨fun _ _ => rfl, fun _ _ => rfl, fun q j _ hj => update_of_ne ?_ ..⟩
    -- the new reference was unlocked
    rintro rfl
    exact h.pinned q j hj hk'
  | modify p k d iupd iacc =>
    obtain ⟨-, hs⟩ := Option.ite_none_right_eq_some.mp hs
    obtain ⟨x, -, rfl⟩ := Option.map_eq_some_iff.mp hs
    exact ⟨fun _ _ => rfl, fun _ _ => rfl, fun _ _ _ _ => rfl⟩
  | run p error => exact h.others_run hs
  | abandon p =>
    simp only [InodeSys.step] at hs
    split at hs <;> cases hs
    exact others_goto rfl rfl rfl

/-- In a run whose every step meets `OkLock`, an inode is locked by one process at a time, its bit
is set as long as it is, and what another process does leaves the lock where it is. -/
theorem ilock_exclusive [Fintype π] {s₀ : InodeSys π κ} (h₀ : s₀.Booted M)
    (h : Reachable (step M) OkLock s₀ s) :
    (∀ x p q, s.Owns p x → s.Owns q x → p = q) ∧
    (∀ x p, s.Owns p x → (s.inode x).ilock = true) ∧
    ∀ a s', s.OkLock a → s.step M a = some s' → ∀ p x, p ≠ a.actor → s.Owns p x →
      s'.Owns p x ∧ (s'.inode x).ilock = true := by
  obtain ⟨hinv, hexcl⟩ := h.invariant (P := fun s => s.Inv M ∧ s.Excl) ⟨h₀.inv, h₀.excl⟩
    fun s a s' ⟨hinv, hexcl⟩ hok hs => ⟨hinv.step hok.ok hs, hexcl.step hinv hok hs⟩
  refine ⟨hexcl.single, hexcl.held, fun a s' hok hs p x hp hown => ?_⟩
  have hown' : s'.Owns p x := ((hinv.others_step hs).owns_iff hp x).mpr hown
  exact ⟨hown', (hexcl.step hinv hok hs).held x p hown'⟩

/-- A process has inode 5 open, another one has looked it up and holds it locked. -/
def shareInode : List (InodeAct (Fin 3) (Fin 3)) :=
  [.iget 0 0 1 5, .run 0 false, .prele 0 0, .iget 1 1 1 5]

/-- Process 1 keeps the inode locked while process 2 runs `update`. -/
theorem ilock_exclusive_lookup : ∃ s s', runSteps (step noMounts) shareInode oneLink = some s ∧
    s.step noMounts (.update 2) = some s' ∧ s.Owns 1 0 ∧ (s.inode 0).ilock = true ∧
    s'.Owns 1 0 ∧ (s'.inode 0).ilock = true := by
  have hrun : (checkedSteps (step noMounts) (fun s a => decide (s.Ok a) && !a.isIput) shareInode
      oneLink).any (fun s => decide (s.locked 1 1 = true ∧ s.ref 1 = some 0) &&
        (s.step noMounts (.update 2)).isSome) = true := by
    decide +kernel
  obtain ⟨s, hs, hcheck⟩ := (Option.any_eq_true _ _).mp hrun
  obtain ⟨hlocked, hnext⟩ := Bool.and_eq_true_iff.mp hcheck
  obtain ⟨s', hs'⟩ := Option.isSome_iff_exists.mp hnext
  obtain ⟨hlock, href⟩ := of_decide_eq_true hlocked
  have hreach : Reachable (step noMounts) OkLock oneLink s := by
    refine Reachable.refl.of_checkedSteps (fun s a hcheck => ?_) hs
    obtain ⟨hok, hiput⟩ := Bool.and_eq_true_iff.mp hcheck
    have hok : s.Ok a := of_decide_eq_true hok
    cases a with
    | iput p k => cases hiput
    | _ => exact hok
  have hown : s.Owns 1 0 := .inl ⟨1, hlock, href⟩
  obtain ⟨-, hheld, hkept⟩ := ilock_exclusive (booted_boot _ fun _ => rfl) hreach
  have hafter := hkept (.update 2) s' trivial hs' 1 0 (by decide) hown
  exact ⟨s, s', runSteps_of_checkedSteps hs, hs', hown, hheld 0 1 hown, hafter.1, hafter.2⟩

/-- The first process closes the file while the second has the inode locked. -/
theorem not_ilock_exclusive : ¬ ∀ s, Reachable (step noMounts) (fun _ _ => True) oneLink s →
    ∀ x p, s.Owns p x → (s.inode x).ilock = true := by
  intro hall
  have hrun : (runSteps (step noMounts) (shareInode ++ [.iput 0 0]) oneLink).any (fun s =>
      decide (s.locked 1 1 = true ∧ s.ref 1 = some 0 ∧ (s.inode 0).ilock = false)) = true := by
    decide +kernel
  obtain ⟨s, hs, hcheck⟩ := (Option.any_eq_true _ _).mp hrun
  obtain ⟨hlock, href, hclear⟩ := of_decide_eq_true hcheck
  have hheld := hall s (Reachable.refl.of_runSteps hs) 0 1 (.inl ⟨1, hlock, href⟩)
  rw [hclear] at hheld
  cases hheld

end InodeSys

end UnixV6
