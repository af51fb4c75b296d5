import UnixV6.Ken.InodeTable

/-!
# What `iget` returns and what `iupdat` writes

The consequences of the invariant of the inode table for the callers of `iget`, for the references
they keep, and for the disk slots that `iupdat` writes.
-/

open Function

namespace UnixV6.InodeSys

variable {π κ : Type} [Fintype κ]
variable {M : MountTable κ} {s s' : InodeSys π κ} {p : π} {k : κ} {x : InodePtr}

/-! ## Names -/

/-- No two slots in use are the same inode. -/
def OneSlot (s : InodeSys π κ) : Prop :=
  ∀ x x', (s.inode x).i_count ≠ 0 → (s.inode x').i_count ≠ 0 →
    (s.inode x).name = (s.inode x').name → x = x'

/-- A reference that is still there refers to the same inode. -/
def KeepsNames (s s' : InodeSys π κ) : Prop :=
  ∀ k x, s.ref k = some x → s'.ref k = some x → (s'.inode x).name = (s.inode x).name

/-- A slot changes its name only when it is free before or after. -/
def NamesFree (s s' : InodeSys π κ) : Prop :=
  ∀ x, (s'.inode x).name = (s.inode x).name ∨ s.refs x = 0 ∨ s'.refs x = 0

theorem NamesFree.keepsNames (h : NamesFree s s') : KeepsNames s s' := by
  intro k x hk hk'
  rcases h x with hname | hzero | hzero
  · exact hname
  · exact absurd hzero (refs_pos hk)
  · exact absurd hzero (refs_pos hk')

/-- A slot gets fields with the same name. -/
theorem namesFree_of_setInode {i : Inode} (hi : i.name = (s.inode x).name)
    (hs : s'.inode = update s.inode x i) : NamesFree s s' := by
  intro y
  left
  rw [hs]
  by_cases hy : y = x
  · rw [hy, update_self, hi]
  · rw [update_of_ne hy]

theorem namesFree_of_eq (hs : s'.inode = s.inode) : NamesFree s s' :=
  fun y => .inl (by rw [hs])

/-- The part of `iput` before its first sleep has changed flags only. -/
theorem NamesFree.of_flags {s₁ : InodeSys π κ} (h : NamesFree s₁ s') (href : s₁.ref = s.ref)
    (hname : ∀ y, (s₁.inode y).name = (s.inode y).name) : NamesFree s s' := by
  intro y
  have hrefs : s₁.refs y = s.refs y := by simp only [refs, href]
  rw [← hname, ← hrefs]
  exact h y

omit [Fintype κ] in
/-- The names, after an inode has been changed but for its name. -/
theorem name_setInode {i : Inode} (hi : i.name = (s.inode x).name) (y : InodePtr) :
    ((s.setInode x i).inode y).name = (s.inode y).name := by
  by_cases hy : y = x
  · subst hy
    simp only [setInode, update_self, hi]
  · simp only [setInode, update_of_ne hy]

omit [Fintype κ] in
theorem name_prele (x y : InodePtr) : ((s.prele x).inode y).name = (s.inode y).name := by
  unfold prele
  exact name_setInode (i := { s.inode x with ilock := false, iwant := false }) rfl y

variable [DecidableEq π] [DecidableEq κ]

theorem namesFree_iputDone (ha : s.Alone p k x) : NamesFree s (s.iputDone p k x) := by
  intro y
  by_cases hy : y = x
  · subst hy
    have hrefs : (s.iputDone p k y).refs y + 1 = s.refs y := refs_update_none ha.ref rfl
    have hone := ha.one
    exact .inr (.inr (by omega))
  · left
    change (update s.inode x _ y).name = _
    rw [update_of_ne hy]

theorem namesFree_iputUpdat (ha : s.Alone p k x) : NamesFree s (s.iputUpdat M p k x) := by
  unfold InodeSys.iputUpdat
  split
  · exact namesFree_of_eq rfl
  · exact namesFree_iputDone ha

/-- `iput` changes no name but that of the inode it frees. -/
theorem Inv.namesFree_iput (h : s.Inv M) (hk : s.ref k = some x) :
    NamesFree s (s.iput M p k x) := by
  unfold InodeSys.iput
  dsimp only
  split
  case isTrue hcount =>
    split
    · exact namesFree_of_setInode (x := x) (i := { s.inode x with ilock := true }) rfl rfl
    · unfold InodeSys.iputUpdat
      split
      · exact namesFree_of_setInode (x := x) (i := { s.inode x with ilock := true }) rfl rfl
      · intro y
        by_cases hy : y = x
        · subst hy
          right
          right
          have hone := (h.slot y).refs_eq_one hcount
          exact Nat.succ.inj ((refs_update_none hk rfl).trans hone)
        · left
          change (update (update s.inode x _) x _ y).name = _
          rw [update_of_ne hy, update_of_ne hy]
  case isFalse =>
    exact namesFree_of_setInode (x := x) (i := { s.inode x with
      i_count := (s.inode x).i_count + -1#8, ilock := false, iwant := false }) rfl rfl

/-- `iget` gives a free slot a name. -/
theorem Inv.namesFree_iget {name : ℤ × ℤ} {dev ino : ℤ} (h : s.Inv M)
    (hs : s.iget M p k name dev ino = some s') : NamesFree s s' := by
  unfold InodeSys.iget at hs
  split at hs
  -- the slot is in the table: locked, being updated, or taken
  case h_1 x hip =>
    dsimp only at hs
    split at hs
    · cases hs
      exact namesFree_of_setInode (x := x) (i := { s.inode x with iwant := true }) rfl rfl
    -- a mounted-on inode is followed, if the mount is there
    · split at hs
      · split at hs
        · cases hs
          exact namesFree_of_eq rfl
        · cases hs
      · cases hs
        exact namesFree_of_setInode (x := x) (i := { s.inode x with
          i_count := (s.inode x).i_count + 1, ilock := true }) rfl rfl
  -- a free slot is claimed; it had no references
  case h_2 =>
    split at hs
    · cases hs
      exact namesFree_of_eq rfl
    case h_2 x hip =>
      cases hs
      have hzero := (h.slot x).refs_eq_zero (findFree_some hip)
      intro y
      by_cases hy : y = x
      · exact .inr (.inl (hy ▸ hzero))
      · left
        change (update s.inode x _ y).name = _
        rw [update_of_ne hy]

theorem Inv.namesFree_plock (x : InodePtr) : NamesFree s (s.plock p k x) := by
  unfold InodeSys.plock
  split
  · exact namesFree_of_setInode (x := x) (i := { s.inode x with iwant := true }) rfl rfl
  · exact namesFree_of_setInode (x := x) (i := { s.inode x with ilock := true }) rfl rfl

theorem truncated_name (i : Inode) : (truncated i).name = i.name := by
  unfold truncated
  split <;> rfl

omit [DecidableEq κ] in
theorem namesFree_scan (n : ℕ) : NamesFree s (s.scan M p n) := by
  unfold InodeSys.scan
  split
  case isTrue hn =>
    dsimp only
    split
    · exact namesFree_of_eq rfl
    · split
      · exact namesFree_of_setInode (x := ⟨n, hn⟩) (i := { s.inode ⟨n, hn⟩ with ilock := true })
          rfl rfl
      · intro y
        left
        have hlock := name_setInode (s := s) (x := ⟨n, hn⟩)
          (i := { s.inode ⟨n, hn⟩ with ilock := true }) rfl y
        rw [← hlock]
        exact name_prele _ y
  case isFalse => exact namesFree_of_eq rfl

/-- A process that wakes up changes no name. -/
theorem Inv.namesFree_run {error : Bool} (h : s.Inv M) (hs : s.run M p error = some s') :
    NamesFree s s' := by
  -- by the piece; only `itrunc`'s end and a write-back can change a name
  have hplaced := h.placed p
  unfold InodeSys.run at hs
  generalize s.pc p = c at hs hplaced
  cases c with
  | idle => cases hs
  | iget k name dev ino => exact h.namesFree_iget hs
  | igetRead k name =>
    obtain ⟨x, ha, -⟩ := hplaced
    dsimp only at hs
    rw [ha.ref] at hs
    cases hs
    cases error with
    | false =>
      exact namesFree_of_setInode (x := x) (i := { s.inode x with
        toDinode := s.dinode (s.inode x).i_dev (s.inode x).i_number }) rfl rfl
    | true => exact h.namesFree_iput ha.ref
  | plock k =>
    obtain ⟨x, -, rfl⟩ := Option.map_eq_some_iff.mp hs
    exact Inv.namesFree_plock x
  | itrunc k =>
    obtain ⟨x, ha⟩ := hplaced
    dsimp only at hs
    rw [ha.ref] at hs
    cases hs
    -- the slot in `itrunc` is the one whose last reference went
    have halone : (s.setInode x (truncated (s.inode x))).Alone p k x := by
      refine ⟨ha.ref, ha.one, ?_, ha.locked, ha.updating⟩
      simp only [setInode, update_self]
      unfold truncated
      split <;> exact ha.ilock
    exact (namesFree_iputUpdat halone).of_flags rfl (name_setInode (truncated_name _))
  | iupdat k dev ino =>
    obtain ⟨x, -, rfl⟩ := Option.map_eq_some_iff.mp hs
    exact namesFree_of_eq rfl
  | iupdatWrite k =>
    obtain ⟨x, ha⟩ := hplaced
    dsimp only at hs
    rw [ha.ref] at hs
    cases hs
    exact namesFree_iputDone ha
  | super =>
    cases hs
    exact namesFree_of_eq rfl
  | scan n =>
    cases hs
    exact namesFree_scan n
  | updRead x dev ino =>
    cases hs
    exact namesFree_of_eq rfl
  | updWrite x =>
    cases hs
    exact namesFree_of_setInode (x := x) (i := { s.inode x with
      ilock := false, iwant := false }) rfl rfl

/-- A step changes no name but that of a free slot. -/
theorem Inv.namesFree_step [Fintype π] {a : InodeAct π κ} (h : s.Inv M)
    (hs : s.step M a = some s') : NamesFree s s' := by
  -- the actions, each with what it may do to a name
  cases a with
  | iget p k dev ino =>
    obtain ⟨-, hs⟩ := Option.ite_none_right_eq_some.mp hs
    exact h.namesFree_iget hs
  | iput p k =>
    obtain ⟨-, hs⟩ := Option.ite_none_right_eq_some.mp hs
    obtain ⟨x, hip, rfl⟩ := Option.map_eq_some_iff.mp hs
    exact h.namesFree_iput hip
  | plock p k =>
    obtain ⟨-, hs⟩ := Option.ite_none_right_eq_some.mp hs
    obtain ⟨x, -, rfl⟩ := Option.map_eq_some_iff.mp hs
    exact Inv.namesFree_plock x
  | prele p k =>
    obtain ⟨-, hs⟩ := Option.ite_none_right_eq_some.mp hs
    obtain ⟨x, -, rfl⟩ := Option.map_eq_some_iff.mp hs
    exact namesFree_of_setInode (x := x) (i := { s.inode x with
      ilock := false, iwant := false }) rfl rfl
  | update p =>
    obtain ⟨-, hs⟩ := Option.ite_none_right_eq_some.mp hs
    split at hs <;> cases hs <;> exact namesFree_of_eq rfl
  | share p k k' =>
    obtain ⟨-, hs⟩ := Option.ite_none_right_eq_some.mp hs
    obtain ⟨x, -, rfl⟩ := Option.map_eq_some_iff.mp hs
    exact namesFree_of_setInode (x := x) (i := { s.inode x with
      i_count := (s.inode x).i_count + 1 }) rfl rfl
  | modify p k d iupd iacc =>
    obtain ⟨-, hs⟩ := Option.ite_none_right_eq_some.mp hs
    obtain ⟨x, -, rfl⟩ := Option.map_eq_some_iff.mp hs
    exact namesFree_of_setInode (x := x) (i := { s.inode x with
      toDinode := d, iupd := iupd, iacc := iacc }) rfl rfl
  | run p error => exact h.namesFree_run hs
  | abandon p =>
    simp only [InodeSys.step] at hs
    split at hs
    · cases hs
      exact namesFree_of_eq rfl
    · cases hs

/-! ## `iget` -/

/-- The process asks `iget` for `name` into `k` with this step, or goes on with it. -/
def Asks (s : InodeSys π κ) (p : π) (k : κ) (name : ℤ × ℤ) (a : InodeAct π κ) : Prop :=
  a = .iget p k name.1 name.2 ∨
    (∃ error, a = .run p error) ∧
      ((∃ dev ino, s.pc p = .iget k name dev ino) ∨ s.pc p = .igetRead k name)

/-- `iget` has returned: NULL, or a locked slot with the inode that `name` leads to, which is not
mounted on. -/
def Returned (M : MountTable κ) (s : InodeSys π κ) (p : π) (k : κ) (name : ℤ × ℤ) : Prop :=
  s.ref k = none ∨ ∃ x, s.ref k = some x ∧ (s.inode x).ilock = true ∧ s.locked p k = true ∧
    M.Leads name (s.inode x).name ∧
    ∀ m, M.m_inodp m ≠ none → M.m_name m ≠ (s.inode x).name

omit [DecidableEq π] [DecidableEq κ] in
/-- An inode without `IMOUNT` is not in the mount table. -/
theorem Inv.not_mounted (h : s.Inv M) (hused : s.refs x ≠ 0) (himount : (s.inode x).imount = false)
    (m : Fin NMOUNT) (hm : M.m_inodp m ≠ none) : M.m_name m ≠ (s.inode x).name := by
  intro hname
  obtain ⟨y, hy⟩ := Option.ne_none_iff_exists'.mp hm
  obtain ⟨href, hyname, hyimount, -⟩ := h.mounts m y hy
  have hsame := h.unique y x (refs_pos href) hused (hyname.trans hname)
  rw [hsame, himount] at hyimount
  cases hyimount

/-- `iget` returns the inode that it was asked for. -/
theorem Inv.returned_iget {name : ℤ × ℤ} {dev ino : ℤ} (h : s.Inv M) (hk : s.ref k = none)
    (hino : ino ≠ 0) (hleads : M.Leads name (dev, ino)) (hs : s.iget M p k name dev ino = some s')
    (hdone : s'.pc p = .idle) : Returned M s' p k name := by
  unfold InodeSys.iget at hs
  split at hs
  case h_1 x hx =>
    -- the slot was found under its name
    have hname := findInode_some hx
    dsimp only at hs
    split at hs
    case isTrue =>
      cases hs
      -- a locked slot: the process waits and does not return
      simp only [InodeSys.goto, update_self] at hdone
      cases hdone
    case isFalse =>
      split at hs
      case isTrue =>
        split at hs
        · cases hs
          simp only [InodeSys.goto, update_self] at hdone
          cases hdone
        · cases hs
      case isFalse himount =>
        cases hs
        -- the inode returned is in use
        have hused : s.refs x ≠ 0 := by
          intro hzero
          have hnumber : (s.inode x).i_number = ino := congrArg Prod.snd hname
          exact hino (hnumber.symm.trans ((h.slot x).free hzero).1)
        have hnot := h.not_mounted hused (by simpa using himount)
        refine .inr ⟨x, ?_, ?_, ?_, ?_, ?_⟩
        · simp only [InodeSys.goto, take, setLocked, setRef, update_self]
        · simp only [InodeSys.goto, take, setLocked, setRef, setInode, update_self]
        · simp only [InodeSys.goto, take, setLocked, update_self]
        · simp only [InodeSys.goto, take, setLocked, setRef, setInode, update_self]
          exact hname ▸ hleads
        · simp only [InodeSys.goto, take, setLocked, setRef, setInode, update_self]
          exact hnot
  -- no slot, or the slot is claimed and read first
  case h_2 =>
    split at hs
    · cases hs
      exact .inl hk
    · cases hs
      simp only [InodeSys.goto, update_self] at hdone
      cases hdone

omit [Fintype κ] in
/-- The reference is gone when `iput` is done. -/
theorem iputUpdat_idle (hdone : (s.iputUpdat M p k x).pc p = .idle) :
    (s.iputUpdat M p k x).ref k = none := by
  unfold iputUpdat at hdone ⊢
  split at hdone
  case h_1 =>
    simp only [InodeSys.goto, update_self] at hdone
    cases hdone
  case h_2 =>
    exact update_self ..

omit [Fintype κ] in
/-- An `iput` that has not slept has emptied the holder. -/
theorem iput_idle (hdone : (s.iput M p k x).pc p = .idle) : (s.iput M p k x).ref k = none := by
  unfold iput at hdone ⊢
  dsimp only at hdone ⊢
  by_cases hcount : (s.inode x).i_count = 1
  · rw [if_pos hcount] at hdone ⊢
    by_cases hlink : (s.inode x).i_nlink.toInt ≤ 0
    · rw [if_pos hlink] at hdone
      simp only [InodeSys.goto, update_self] at hdone
      cases hdone
    · rw [if_neg hlink] at hdone ⊢
      exact iputUpdat_idle hdone
  · rw [if_neg hcount]
    exact update_self ..

/-- A call that is done has returned the inode it was asked for. -/
theorem Inv.returned_step [Fintype π] {a : InodeAct π κ} {name : ℤ × ℤ} (h : s.Inv M)
    (hs : s.step M a = some s') (ha : s.Asks p k name a) (hdone : s'.pc p = .idle) :
    Returned M s' p k name := by
  rcases ha with rfl | ⟨⟨error, rfl⟩, hpc⟩
  · obtain ⟨⟨-, hk, -, hino⟩, hs⟩ := Option.ite_none_right_eq_some.mp hs
    exact h.returned_iget hk hino .refl hs hdone
  · change s.run M p error = some s' at hs
    have hplaced := h.placed p
    unfold InodeSys.run at hs
    rcases hpc with ⟨dev, ino, hpc⟩ | hpc
    · rw [hpc] at hs hplaced
      obtain ⟨hk, hino, hleads⟩ := hplaced
      exact h.returned_iget hk hino hleads hs hdone
    · rw [hpc] at hs hplaced
      obtain ⟨x, halone, hleads, himount⟩ := hplaced
      dsimp only at hs
      rw [halone.ref] at hs
      cases hs
      cases error with
      | false =>
        have hnot := h.not_mounted (by rw [halone.one]; decide) himount
        refine .inr ⟨x, halone.ref, ?_, halone.locked, ?_, ?_⟩
        · change (update s.inode x _ x).ilock = true
          rw [update_self]
          exact halone.ilock
        · change M.Leads name (update s.inode x _ x).name
          rw [update_self]
          exact hleads
        · change ∀ m, _ → _ ≠ (update s.inode x _ x).name
          rw [update_self]
          exact hnot
      | true =>
        -- `B_ERROR`: the slot is given up, at once or after its `iput` has slept.
        exact .inl (iput_idle hdone)

/-! ## `iupdat` -/

/-- The process is in the `bread` of `iupdat`, about to copy the slot `x` to the disk slot of
`(dev, ino)`. -/
def Writes (s : InodeSys π κ) (p : π) (x : InodePtr) (dev ino : ℤ) : Prop :=
  (∃ k, s.pc p = .iupdat k dev ino ∧ s.ref k = some x) ∨ s.pc p = .updRead x dev ino

omit [Fintype κ] in
/-- `iput` does not write to the disk at once. -/
theorem iput_dinode (s : InodeSys π κ) (p : π) (k : κ) (x : InodePtr) :
    (s.iput M p k x).dinode = s.dinode := by
  unfold iput iputUpdat
  dsimp only
  split
  · split
    · rfl
    · split <;> rfl
  · rfl

omit [Fintype κ] in
/-- `iget` does not write to the disk. -/
theorem iget_dinode {name : ℤ × ℤ} {dev ino : ℤ} (hs : s.iget M p k name dev ino = some s') :
    s'.dinode = s.dinode := by
  unfold iget at hs
  dsimp only at hs
  split at hs
  · split at hs
    · cases hs
      rfl
    · split at hs
      · split at hs <;> cases hs
        rfl
      · cases hs
        rfl
  · split at hs <;> cases hs <;> rfl

omit [Fintype κ] [DecidableEq κ] in
/-- `update` does not write to the disk at once. -/
theorem scan_dinode (s : InodeSys π κ) (p : π) (n : ℕ) : (s.scan M p n).dinode = s.dinode := by
  unfold scan
  split
  · dsimp only
    split
    · rfl
    · split <;> rfl
  · rfl

omit [Fintype κ] in
/-- `plock` does not write to the disk. -/
theorem plock_dinode (s : InodeSys π κ) (p : π) (k : κ) (x : InodePtr) :
    (s.plock p k x).dinode = s.dinode := by
  unfold plock
  split <;> rfl

omit [Fintype κ] in
/-- Only the copying of `iupdat` writes a disk slot. -/
theorem dinode_step [Fintype π] {a : InodeAct π κ} (hs : s.step M a = some s') :
    -- only the two pieces of `iupdat` write the disk
    s'.dinode = s.dinode ∨ ∃ p x dev ino, s.Writes p x dev ino ∧
      s'.dinode = update s.dinode dev (update (s.dinode dev) ino (s.inode x).toDinode) := by
  cases a with
  | iget p k dev ino =>
    obtain ⟨-, hs⟩ := Option.ite_none_right_eq_some.mp hs
    exact .inl (iget_dinode hs)
  | iput p k =>
    obtain ⟨-, hs⟩ := Option.ite_none_right_eq_some.mp hs
    obtain ⟨x, -, rfl⟩ := Option.map_eq_some_iff.mp hs
    exact .inl (iput_dinode ..)
  | plock p k =>
    obtain ⟨-, hs⟩ := Option.ite_none_right_eq_some.mp hs
    obtain ⟨x, -, rfl⟩ := Option.map_eq_some_iff.mp hs
    exact .inl (plock_dinode ..)
  | prele p k =>
    obtain ⟨-, hs⟩ := Option.ite_none_right_eq_some.mp hs
    obtain ⟨x, -, rfl⟩ := Option.map_eq_some_iff.mp hs
    exact .inl rfl
  | update p =>
    obtain ⟨-, hs⟩ := Option.ite_none_right_eq_some.mp hs
    split at hs <;> cases hs <;> exact .inl rfl
  | share p k k' =>
    obtain ⟨-, hs⟩ := Option.ite_none_right_eq_some.mp hs
    obtain ⟨x, -, rfl⟩ := Option.map_eq_some_iff.mp hs
    exact .inl rfl
  | modify p k d iupd iacc =>
    obtain ⟨-, hs⟩ := Option.ite_none_right_eq_some.mp hs
    obtain ⟨x, -, rfl⟩ := Option.map_eq_some_iff.mp hs
    exact .inl rfl
  | run p error =>
    change s.run M p error = some s' at hs
    unfold run at hs
    cases hpc : s.pc p with
    | idle => rw [hpc] at hs; cases hs
    | iget k name dev ino => rw [hpc] at hs; exact .inl (iget_dinode hs)
    | igetRead k name =>
      rw [hpc] at hs
      obtain ⟨x, -, rfl⟩ := Option.map_eq_some_iff.mp hs
      cases error with
      | false => exact .inl rfl
      | true => exact .inl (iput_dinode ..)
    | plock k =>
      rw [hpc] at hs
      obtain ⟨x, -, rfl⟩ := Option.map_eq_some_iff.mp hs
      exact .inl (plock_dinode ..)
    | itrunc k =>
      rw [hpc] at hs
      obtain ⟨x, -, rfl⟩ := Option.map_eq_some_iff.mp hs
      left
      unfold iputUpdat
      split <;> rfl
    | iupdat k dev ino =>
      rw [hpc] at hs
      obtain ⟨x, hx, rfl⟩ := Option.map_eq_some_iff.mp hs
      exact .inr ⟨p, x, dev, ino, .inl ⟨k, hpc, hx⟩, rfl⟩
    | iupdatWrite k =>
      rw [hpc] at hs
      obtain ⟨x, -, rfl⟩ := Option.map_eq_some_iff.mp hs
      exact .inl rfl
    | super => rw [hpc] at hs; cases hs; exact .inl rfl
    | scan n => rw [hpc] at hs; cases hs; exact .inl (scan_dinode ..)
    | updRead x dev ino =>
      rw [hpc] at hs
      cases hs
      exact .inr ⟨p, x, dev, ino, .inr hpc, rfl⟩
    | updWrite x => rw [hpc] at hs; cases hs; exact .inl rfl
  | abandon p =>
    simp only [step] at hs
    split at hs
    · cases hs
      exact .inl rfl
    · cases hs

omit [DecidableEq π] [DecidableEq κ] in
/-- The slot that `iupdat` copies from is in use and is the inode of the disk slot. -/
theorem Inv.writes_own (h : s.Inv M) {dev ino : ℤ} (hw : s.Writes p x dev ino) :
    s.refs x ≠ 0 ∧ (s.inode x).name = (dev, ino) := by
  have hplaced := h.placed p
  rcases hw with ⟨k, hpc, hk⟩ | hpc
  · rw [hpc] at hplaced
    obtain ⟨y, ha, hname⟩ := hplaced
    obtain rfl : y = x := Option.some.inj (ha.ref.symm.trans hk)
    exact ⟨refs_pos hk, hname⟩
  · rw [hpc] at hplaced
    exact hplaced

omit [DecidableEq π] [DecidableEq κ] in
/-- An inode with references has a count. -/
theorem SlotOk.count_ne_zero (h : s.SlotOk M x) (hused : s.refs x ≠ 0) :
    (s.inode x).i_count ≠ 0 :=
  fun hcount => hused (h.refs_eq_zero hcount)

/-! ## The results -/

instance neZeroThree : NeZero 3 := ⟨by decide⟩

/-- An empty mount table, and a disk on which every inode has a link. -/
def noMounts : MountTable (Fin 3) where
  m_inodp _ := none
  m_dev _ := 0
  m_ref _ := 0
  m_name _ := (0, 0)
  s_ronly _ := false

@[inherit_doc noMounts]
def oneLink : InodeSys (Fin 3) (Fin 3) := boot fun _ _ => { i_nlink := 1 }

/-- In a run whose every step meets `Ok`, at most one slot in use is the inode `(dev, ino)`; what a
call of `iget` returns is a slot with the inode that the name leads to over the mount table,
locked; and a reference keeps referring to the same inode. -/
theorem iget_identity [Fintype π] {s₀ : InodeSys π κ} (h₀ : s₀.Booted M)
    (h : Reachable (step M) Ok s₀ s) :
    s.OneSlot ∧
    ∀ a s', s.Ok a → s.step M a = some s' → KeepsNames s s' ∧
      ∀ p k name, s.Asks p k name a → s'.pc p = .idle → s'.Returned M p k name := by
  have hinv := inv_of_reachable h₀ h
  refine ⟨fun y y' hy hy' hname => ?_, fun a s' _ hs => ⟨?_, fun p k name ha hdone => ?_⟩⟩
  · exact hinv.unique y y' ((hinv.slot y).count_ne hy) ((hinv.slot y').count_ne hy') hname
  · exact (hinv.namesFree_step hs).keepsNames
  · exact hinv.returned_step hs ha hdone

/-- A process reads in inode 5 of device 1. -/
theorem iget_identity_first : ∃ s s', runSteps (step noMounts) [.iget 0 0 1 5] oneLink = some s ∧
    s.step noMounts (.run 0 false) = some s' ∧ s.OneSlot ∧ s'.Returned noMounts 0 0 (1, 5) := by
  have hrun : (checkedSteps (step noMounts) (fun s a => decide (s.Ok a)) [.iget 0 0 1 5]
      oneLink).any (fun s => decide (s.pc 0 = .igetRead 0 (1, 5)) &&
        (s.step noMounts (.run 0 false)).any fun s' => decide (s'.pc 0 = .idle)) = true := by
    decide +kernel
  obtain ⟨s, hs, hcheck⟩ := (Option.any_eq_true _ _).mp hrun
  obtain ⟨hpc, hnext⟩ := Bool.and_eq_true_iff.mp hcheck
  obtain ⟨s', hs', hdone⟩ := (Option.any_eq_true _ _).mp hnext
  have hpc := of_decide_eq_true hpc
  have hreach : Reachable (step noMounts) Ok oneLink s :=
    Reachable.refl.of_checkedSteps (fun s a => of_decide_eq_true) hs
  obtain ⟨hone, hsteps⟩ := iget_identity (booted_boot _ fun _ => rfl) hreach
  have hok : s.Ok (.run 0 false) := by
    rw [Ok, hpc]
    trivial
  refine ⟨s, s', ?_, hs', hone, ?_⟩
  · exact runSteps_of_checkedSteps hs
  · exact (hsteps _ s' hok hs').2 0 0 (1, 5) (.inr ⟨⟨false, rfl⟩, .inr hpc⟩) (of_decide_eq_true hdone)

/-- `update` sleeps in the `iupdat` of slot 0 while the last reference to it is released and the slot
is taken for inode 6; then it unlocks the slot. -/
def lostLock : List (InodeAct (Fin 3) (Fin 3)) :=
  [.iget 0 0 1 5, .run 0 false, .modify 0 0 { i_nlink := 1, i_uid := 7 } true false, .prele 0 0,
    .update 2, .run 2 false, .run 2 false, .iput 0 0, .run 0 false, .run 0 false, .iget 1 1 1 6]

/-- The `iget` of inode 6 returns an inode that is not locked. -/
theorem not_iget_identity : ¬ ∀ s, Reachable (step noMounts) (fun _ _ => True) oneLink s →
    s.OneSlot ∧ ∀ a s', s.step noMounts a = some s' → KeepsNames s s' ∧
      ∀ p k name, s.Asks p k name a → s'.pc p = .idle → s'.Returned noMounts p k name := by
  intro hall
  have hrun : (runSteps (step noMounts) (lostLock ++ [.run 2 false, .run 2 false]) oneLink).any
      (fun s => decide (s.pc 1 = .igetRead 1 (1, 6)) &&
        (s.step noMounts (.run 1 false)).any fun s' =>
          decide (s'.pc 1 = .idle ∧ s'.ref 1 = some 0 ∧ (s'.inode 0).ilock = false)) = true := by
    decide +kernel
  obtain ⟨s, hs, hcheck⟩ := (Option.any_eq_true _ _).mp hrun
  obtain ⟨hpc, hnext⟩ := Bool.and_eq_true_iff.mp hcheck
  obtain ⟨s', hs', hdone⟩ := (Option.any_eq_true _ _).mp hnext
  obtain ⟨hidle, href, hlock⟩ := of_decide_eq_true hdone
  have hreturned := ((hall s (Reachable.refl.of_runSteps hs)).2 _ s' hs').2 1 1 (1, 6)
    (.inr ⟨⟨false, rfl⟩, .inr (of_decide_eq_true hpc)⟩) hidle
  rcases hreturned with hnone | ⟨x, hx, hxlock, -⟩
  · rw [href] at hnone
    cases hnone
  · rw [href] at hx
    cases hx
    rw [hlock] at hxlock
    cases hxlock

/-- In a run whose every step meets `Ok`, whenever `iupdat` is about to copy a slot to the disk slot
of `(dev, ino)`, that slot is the one in-core inode of `(dev, ino)`; so a disk slot only ever
receives the fields of its own inode. -/
theorem iupdat_own_slot [Fintype π] {s₀ : InodeSys π κ} (h₀ : s₀.Booted M)
    (h : Reachable (step M) Ok s₀ s) :
    (∀ p x dev ino, s.Writes p x dev ino → ∀ y, y = x ↔
      (s.inode y).i_count ≠ 0 ∧ (s.inode y).name = (dev, ino)) ∧
    ∀ a s', s.step M a = some s' → ∀ dev ino, s'.dinode dev ino ≠ s.dinode dev ino →
      ∃ x, (s.inode x).i_count ≠ 0 ∧ (s.inode x).name = (dev, ino) ∧
        s'.dinode dev ino = (s.inode x).toDinode := by
  have hinv := inv_of_reachable h₀ h
  refine ⟨fun p x dev ino hw y => ?_, fun a s' hs dev ino hne => ?_⟩
  -- the slot that is written is the only one of its name
  · obtain ⟨hused, hname⟩ := hinv.writes_own hw
    constructor
    · rintro rfl
      exact ⟨(hinv.slot y).count_ne_zero hused, hname⟩
    · rintro ⟨hy, hyname⟩
      exact hinv.unique y x ((hinv.slot y).count_ne hy) hused (hyname.trans hname.symm)
  · -- only `iupdat` writes a disk slot
    rcases dinode_step hs with hsame | ⟨p, x, d, i, hw, hd⟩
    · exact absurd (by rw [hsame]) hne
    · obtain ⟨hused, hname⟩ := hinv.writes_own hw
      have hdev : dev = d := by
        by_contra hdev
        rw [hd, update_of_ne hdev] at hne
        exact hne rfl
      subst hdev
      have hino : ino = i := by
        by_contra hino
        rw [hd, update_self, update_of_ne hino] at hne
        exact hne rfl
      subst hino
      exact ⟨x, (hinv.slot x).count_ne_zero hused, hname, by rw [hd, update_self, update_self]⟩

/-- The last reference to inode 5 is released after a change. -/
theorem iupdat_own_slot_last : ∃ s, runSteps (step noMounts) [.iget 0 0 1 5, .run 0 false,
      .modify 0 0 { i_nlink := 1, i_uid := 7 } true false, .iput 0 0] oneLink = some s ∧
    s.Writes 0 0 1 5 ∧ (s.inode 0).i_count ≠ 0 ∧ (s.inode 0).name = (1, 5) := by
  have hrun : (checkedSteps (step noMounts) (fun s a => decide (s.Ok a)) [.iget 0 0 1 5,
      .run 0 false, .modify 0 0 { i_nlink := 1, i_uid := 7 } true false, .iput 0 0] oneLink).any
        (fun s => decide (s.pc 0 = .iupdat 0 1 5 ∧ s.ref 0 = some 0)) = true := by
    decide +kernel
  obtain ⟨s, hs, hcheck⟩ := (Option.any_eq_true _ _).mp hrun
  obtain ⟨hpc, href⟩ := of_decide_eq_true hcheck
  have hreach : Reachable (step noMounts) Ok oneLink s :=
    Reachable.refl.of_checkedSteps (fun s a => of_decide_eq_true) hs
  have hwrites : s.Writes 0 0 1 5 := .inl ⟨0, hpc, href⟩
  have hown := (iupdat_own_slot (booted_boot _ fun _ => rfl) hreach).1 0 0 1 5 hwrites 0
  exact ⟨s, runSteps_of_checkedSteps hs, hwrites, hown.mp rfl⟩

/-- `update` is about to copy the slot, now inode 6, to the disk slot of inode 5. -/
theorem not_iupdat_own_slot : ¬ ∀ s, Reachable (step noMounts) (fun _ _ => True) oneLink s →
    ∀ p x dev ino, s.Writes p x dev ino → (s.inode x).name = (dev, ino) := by
  intro hall
  have hrun : (runSteps (step noMounts) lostLock oneLink).any (fun s =>
      decide (s.pc 2 = .updRead 0 1 5 ∧ (s.inode 0).i_number = 6)) = true := by
    decide +kernel
  obtain ⟨s, hs, hcheck⟩ := (Option.any_eq_true _ _).mp hrun
  obtain ⟨hpc, hnumber⟩ := of_decide_eq_true hcheck
  have hname := hall s (Reachable.refl.of_runSteps hs) 2 0 1 5 (.inr hpc)
  have hfive : (s.inode 0).i_number = 5 := congrArg Prod.snd hname
  rw [hnumber] at hfive
  exact absurd hfive (by decide)

end UnixV6.InodeSys
