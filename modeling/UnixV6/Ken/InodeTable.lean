import UnixV6.Ken.Iget
import UnixV6.Lib.Run

/-!
# Identity and locks of the in-core inodes

`InodeSys.Inv` holds in every state of a run in which no last reference is released while `update`
is inside its `iupdat` for the same slot. It says that counts are exact, that no two slots in use
are the same inode, and that an `iget` or `iput` which sleeps has its slot for itself.
-/

open Function

namespace UnixV6

/-- Device and number. -/
def Inode.name (i : Inode) : ℤ × ℤ := (i.i_dev, i.i_number)

/-- The slot that `update` is writing. -/
def IgetPc.updating {κ : Type} : IgetPc κ → Option InodePtr
  | .updRead x _ _ => some x
  | .updWrite x => some x
  | _ => none

/-- From a name that is mounted on to the root of the mounted device. -/
def MountTable.Crosses {κ : Type} (M : MountTable κ) (a b : ℤ × ℤ) : Prop :=
  ∃ m, M.m_inodp m ≠ none ∧ a = M.m_name m ∧ b = (M.m_dev m, ROOTINO)

/-- What `iget` makes of a name. -/
def MountTable.Leads {κ : Type} (M : MountTable κ) : ℤ × ℤ → ℤ × ℤ → Prop :=
  Relation.ReflTransGen M.Crosses

namespace InodeSys

variable {π κ : Type} [Fintype κ]
variable {M : MountTable κ} {s s' : InodeSys π κ} {p q : π} {k : κ} {x : InodePtr}

/-- The number of references to a slot. -/
def refs (s : InodeSys π κ) (x : InodePtr) : ℕ := rowRefs s.ref x

/-- An `iget` or `iput` in progress for `k`: the slot has no other reference, it is locked, and
`update` is not at it. -/
structure Alone (s : InodeSys π κ) (p : π) (k : κ) (x : InodePtr) : Prop where
  ref : s.ref k = some x
  one : s.refs x = 1
  ilock : (s.inode x).ilock = true
  locked : s.locked p k = true
  updating : ∀ q, (s.pc q).updating ≠ some x

/-- What is known about a process at each of its places. -/
def Placed (M : MountTable κ) (s : InodeSys π κ) (p : π) : IgetPc κ → Prop
  | .iget k name dev ino => s.ref k = none ∧ ino ≠ 0 ∧ M.Leads name (dev, ino)
  | .igetRead k name => ∃ x, s.Alone p k x ∧ M.Leads name (s.inode x).name ∧
      (s.inode x).imount = false
  | .itrunc k => ∃ x, s.Alone p k x
  | .iupdat k dev ino => ∃ x, s.Alone p k x ∧ (s.inode x).name = (dev, ino)
  | .iupdatWrite k => ∃ x, s.Alone p k x
  | .updRead x dev ino => s.refs x ≠ 0 ∧ (s.inode x).name = (dev, ino)
  | .updWrite x => s.refs x ≠ 0
  | _ => True

/-- What holds of one slot. -/
structure SlotOk (M : MountTable κ) (s : InodeSys π κ) (x : InodePtr) : Prop where
  count : (s.inode x).i_count = BitVec.ofNat 8 (s.refs x)
  bound : s.refs x < 256
  free : s.refs x = 0 → (s.inode x).i_number = 0 ∧ (s.inode x).iupd = false ∧
    (s.inode x).iacc = false
  used : s.refs x ≠ 0 → (s.inode x).i_number ≠ 0
  mounted : (s.inode x).imount = true → ∃ m, M.m_inodp m = some x

/-- The holder `k` is private to `p`. -/
def Private (s : InodeSys π κ) (p : π) (k : κ) : Prop :=
  ∀ q, q ≠ p → (s.pc q).holder ≠ some k ∧ s.locked q k = false ∧ s.pc q ≠ .plock k

/-- What holds of the table and the processes at every moment. -/
structure Inv (M : MountTable κ) (s : InodeSys π κ) : Prop where
  slot : ∀ x, s.SlotOk M x
  unique : ∀ x x', s.refs x ≠ 0 → s.refs x' ≠ 0 →
    (s.inode x).name = (s.inode x').name → x = x'
  pinned : ∀ p k, s.locked p k = true → s.ref k ≠ none
  waits : ∀ p k, s.pc p = .plock k → s.ref k ≠ none
  priv : ∀ p k, (s.pc p).holder = some k → s.Private p k
  placed : ∀ p, s.Placed M p (s.pc p)
  mounts : ∀ m x, M.m_inodp m = some x → s.ref (M.m_ref m) = some x ∧
    (s.inode x).name = M.m_name m ∧ (s.inode x).imount = true ∧ s.Settled (M.m_ref m)

/-! ## References -/

theorem refs_pos (h : s.ref k = some x) : s.refs x ≠ 0 := by
  intro hzero
  exact rowRefs_eq_zero_iff.mp hzero k h

/-- The only reference to a slot. -/
theorem ref_unique [DecidableEq κ] {j : κ} (hone : s.refs x = 1) (hk : s.ref k = some x) (hj : s.ref j = some x) :
    j = k := by
  by_contra hne
  have hupd := rowRefs_update s.ref k none x
  rw [hk, pointsTo_self, pointsTo_none, add_zero] at hupd
  have hzero : rowRefs (update s.ref k none) x = 0 := by
    have hrefs : rowRefs s.ref x = 1 := hone
    omega
  apply rowRefs_eq_zero_iff.mp hzero j
  rw [update_of_ne hne]
  exact hj

/-- A count of 1 is one reference. -/
theorem SlotOk.refs_eq_one (h : s.SlotOk M x) (hcount : (s.inode x).i_count = 1) :
    s.refs x = 1 := by
  have hnat := congrArg BitVec.toNat (h.count.symm.trans hcount)
  rw [BitVec.toNat_ofNat, Nat.mod_eq_of_lt h.bound] at hnat
  exact hnat

/-- A count of 0 means that there are no references. -/
theorem SlotOk.refs_eq_zero (h : s.SlotOk M x) (hcount : (s.inode x).i_count = 0) :
    s.refs x = 0 := by
  have hnat := congrArg BitVec.toNat (h.count.symm.trans hcount)
  rw [BitVec.toNat_ofNat, Nat.mod_eq_of_lt h.bound] at hnat
  exact hnat

/-- With a count other than 0 there is a reference. -/
theorem SlotOk.count_ne (h : s.SlotOk M x) (hcount : (s.inode x).i_count ≠ 0) :
    s.refs x ≠ 0 := by
  intro hzero
  apply hcount
  rw [h.count, hzero]
  rfl

/-- A process inside `iget` or `iput` with a slot has it for itself. -/
theorem Inv.alone_of_holder (h : s.Inv M) (hholder : (s.pc q).holder = some k)
    (href : s.ref k = some x) : s.Alone q k x := by
  have hplaced := h.placed q
  generalize hpc : s.pc q = c at hholder hplaced
  -- the slot it is alone with is the slot of its reference
  have hsame : ∀ x', s.Alone q k x' → s.Alone q k x := by
    intro x' halone
    obtain rfl : x' = x := by
      have heq := halone.ref
      rw [href] at heq
      exact (Option.some.inj heq).symm
    exact halone
  cases c with
  | iget k' name dev ino =>
    cases hholder
    rw [hplaced.1] at href
    cases href
  | igetRead k' name =>
    cases hholder
    obtain ⟨x', halone, -⟩ := hplaced
    exact hsame x' halone
  | itrunc k' =>
    cases hholder
    obtain ⟨x', halone⟩ := hplaced
    exact hsame x' halone
  | iupdat k' dev ino =>
    cases hholder
    obtain ⟨x', halone, -⟩ := hplaced
    exact hsame x' halone
  | iupdatWrite k' =>
    cases hholder
    obtain ⟨x', halone⟩ := hplaced
    exact hsame x' halone
  | _ => cases hholder

/-- The mount table's references are there, so a new holder is none of them. -/
theorem Inv.ne_mref (h : s.Inv M) (hk : s.ref k = none) (m : Fin NMOUNT)
    (hm : M.m_inodp m ≠ none) : M.m_ref m ≠ k := by
  rintro rfl
  obtain ⟨x, hip⟩ := Option.ne_none_iff_exists'.mp hm
  rw [(h.mounts m x hip).1] at hk
  cases hk

/-- An empty holder that no `iget` is filling is private to who fills it. -/
theorem Inv.private_of_none (h : s.Inv M) (hk : s.ref k = none)
    (hfree : ∀ q, q ≠ p → (s.pc q).holder ≠ some k) : s.Private p k := by
  refine fun q hq => ⟨hfree q hq, ?_, fun hwait => h.waits q k hwait hk⟩
  by_contra hlocked
  exact h.pinned q k (by simpa using hlocked) hk

/-- A reference is taken. -/
theorem refs_update_some [DecidableEq κ] (hk : s.ref k = none)
    (href : s'.ref = update s.ref k (some x)) : s'.refs x = s.refs x + 1 := by
  have hupd := rowRefs_update s.ref k (some x) x
  rw [hk, pointsTo_none, add_zero, pointsTo_self] at hupd
  unfold refs
  rw [href]
  exact hupd

/-- A reference is given up. -/
theorem refs_update_none [DecidableEq κ] (hk : s.ref k = some x)
    (href : s'.ref = update s.ref k none) : s'.refs x + 1 = s.refs x := by
  have hupd := rowRefs_update s.ref k none x
  rw [hk, pointsTo_none, add_zero, pointsTo_self] at hupd
  unfold refs
  rw [href]
  exact hupd

/-! ## Three kinds of step -/

/-- A change of slots that the invariant does not look at. -/
theorem Inv.quiet (h : s.Inv M)
    (hinode : ∀ x, (s'.inode x).i_count = (s.inode x).i_count ∧
      (s'.inode x).name = (s.inode x).name ∧ (s'.inode x).ilock = (s.inode x).ilock ∧
      (s'.inode x).imount = (s.inode x).imount ∧ (s'.inode x).iupd = (s.inode x).iupd ∧
      (s'.inode x).iacc = (s.inode x).iacc)
    (href : s'.ref = s.ref) (hlocked : s'.locked = s.locked) (hpc : s'.pc = s.pc) : s'.Inv M := by
  have hrefs : ∀ x, s'.refs x = s.refs x := fun x => by simp only [refs, href]
  have hnumber : ∀ x, (s'.inode x).i_number = (s.inode x).i_number := fun x =>
    congrArg Prod.snd (hinode x).2.1
  -- nobody gets company
  have halone : ∀ p k x, s.Alone p k x → s'.Alone p k x := by
    intro p k x ha
    refine ⟨?_, ?_, ?_, ?_, ?_⟩
    · rw [href, ha.ref]
    · rw [hrefs, ha.one]
    · rw [(hinode x).2.2.1, ha.ilock]
    · rw [hlocked, ha.locked]
    · rw [hpc]
      exact ha.updating
  refine ⟨fun x => ?_, fun x x' => ?_, ?_, ?_, ?_, fun p => ?_, fun m x hm => ?_⟩
  · have hslot := h.slot x
    refine ⟨?_, ?_, ?_, ?_, ?_⟩
    · rw [(hinode x).1, hrefs, hslot.count]
    · rw [hrefs]
      exact hslot.bound
    · rw [hrefs, hnumber, (hinode x).2.2.2.2.1, (hinode x).2.2.2.2.2]
      exact hslot.free
    · rw [hrefs, hnumber]
      exact hslot.used
    · rw [(hinode x).2.2.2.1]
      exact hslot.mounted
  · rw [hrefs, hrefs, (hinode x).2.1, (hinode x').2.1]
    exact h.unique x x'
  · rw [href, hlocked]
    exact h.pinned
  · rw [href, hpc]
    exact h.waits
  · unfold Private
    rw [hpc, hlocked]
    exact h.priv
  · have hplaced := h.placed p
    rw [hpc]
    generalize s.pc p = c at hplaced
    cases c with
    | iget k name dev ino =>
      obtain ⟨hnone, hrest⟩ := hplaced
      exact ⟨by rw [href, hnone], hrest⟩
    | igetRead k name =>
      obtain ⟨x, ha, hleads, himount⟩ := hplaced
      refine ⟨x, halone _ _ _ ha, ?_, ?_⟩
      · rwa [(hinode x).2.1]
      · rwa [(hinode x).2.2.2.1]
    | itrunc k =>
      obtain ⟨x, ha⟩ := hplaced
      exact ⟨x, halone _ _ _ ha⟩
    | iupdat k dev ino =>
      obtain ⟨x, ha, hname⟩ := hplaced
      exact ⟨x, halone _ _ _ ha, by rw [(hinode x).2.1, hname]⟩
    | iupdatWrite k =>
      obtain ⟨x, ha⟩ := hplaced
      exact ⟨x, halone _ _ _ ha⟩
    | updRead x dev ino =>
      obtain ⟨hused, hname⟩ := hplaced
      exact ⟨by rwa [hrefs], by rw [(hinode x).2.1, hname]⟩
    | updWrite x =>
      change s'.refs x ≠ 0
      rwa [hrefs]
    | _ => trivial
  · obtain ⟨hm₁, hm₂, hm₃, hm₄⟩ := h.mounts m x hm
    refine ⟨by rw [href, hm₁], by rw [(hinode x).2.1, hm₂], ?_, ?_⟩
    · rw [(hinode x).2.2.2.1, hm₃]
    · unfold Settled
      rw [hpc]
      exact hm₄

/-- What the process `p` has done: it has changed at most the slot `x`, what points to it, and its
own place and locks, and nothing that another process relies on. -/
structure Acts (M : MountTable κ) (s s' : InodeSys π κ) (p : π) (x : InodePtr) : Prop where
  inode : ∀ y, y ≠ x → s'.inode y = s.inode y
  ref : ∀ j y, y ≠ x → (s'.ref j = some y ↔ s.ref j = some y)
  pc : ∀ q, q ≠ p → s'.pc q = s.pc q
  locked : ∀ q, q ≠ p → s'.locked q = s.locked q
  updating : (s'.pc p).updating = none ∨ (s'.pc p).updating = some x
  /-- Holders that others use, or that are in the mount table, keep their reference. -/
  kept : ∀ q j, q ≠ p → (s.pc q).holder = some j ∨ s.locked q j = true ∨ s.pc q = .plock j →
    s'.ref j = s.ref j
  mref : ∀ m, M.m_inodp m ≠ none → s'.ref (M.m_ref m) = s.ref (M.m_ref m) ∧
    (s'.pc p).holder ≠ some (M.m_ref m)
  /-- No other process has the slot for itself. -/
  shut : ∀ q j, q ≠ p → (s.pc q).holder = some j → s.ref j ≠ some x
  slot : s'.SlotOk M x
  name : s'.refs x ≠ 0 → s.refs x ≠ 0 ∧ (s'.inode x).name = (s.inode x).name ∨
    ∀ y, y ≠ x → s.refs y ≠ 0 → (s.inode y).name ≠ (s'.inode x).name
  upd : ∀ q, q ≠ p → (s.pc q).updating = some x →
    s'.refs x ≠ 0 ∧ (s'.inode x).name = (s.inode x).name
  mount : ∀ m, M.m_inodp m = some x → (s'.inode x).name = (s.inode x).name ∧
    (s'.inode x).imount = (s.inode x).imount
  pinned : ∀ j, s'.locked p j = true → s'.ref j ≠ none
  waits : ∀ j, s'.pc p = .plock j → s'.ref j ≠ none
  priv : ∀ j, (s'.pc p).holder = some j → s.Private p j
  others : ∀ q j, q ≠ p → (s.pc q).holder = some j → s'.locked p j = false ∧ s'.pc p ≠ .plock j
  placed : s'.Placed M p (s'.pc p)

/-- The references to the other inodes stay. -/
theorem Acts.refs (a : Acts M s s' p x) {y : InodePtr} (hy : y ≠ x) : s'.refs y = s.refs y :=
  rowRefs_congr fun j => a.ref j y hy

/-- Another process that has a slot for itself keeps it. -/
theorem Acts.alone {j : κ} {y : InodePtr} (a : Acts M s s' p x) (hq : q ≠ p)
    (hholder : (s.pc q).holder = some j) (ha : s.Alone q j y) : y ≠ x ∧ s'.Alone q j y := by
  have hy : y ≠ x := by
    rintro rfl
    exact a.shut q j hq hholder ha.ref
  refine ⟨hy, ?_, ?_, ?_, ?_, fun r => ?_⟩
  · rw [a.kept q j hq (.inl hholder), ha.ref]
  · rw [a.refs hy, ha.one]
  · rw [a.inode y hy, ha.ilock]
  · rw [a.locked q hq, ha.locked]
  · by_cases hr : r = p
    · rw [hr]
      rcases a.updating with hnone | hsome
      · rw [hnone]
        nofun
      · rw [hsome]
        exact fun heq => hy (Option.some.inj heq).symm
    · rw [a.pc r hr]
      exact ha.updating r

/-- The other processes stand where they stood. -/
theorem Acts.placed_other (a : Acts M s s' p x) (h : s.Inv M) (hq : q ≠ p) :
    s'.Placed M q (s.pc q) := by
  -- by the other process's piece: its own slot is not the one that changed
  have hplaced := h.placed q
  have halone : ∀ j y, (s.pc q).holder = some j → s.Alone q j y → y ≠ x ∧ s'.Alone q j y :=
    fun j y hj ha => a.alone hq hj ha
  have hkept := a.kept q
  have hupd := a.upd q hq
  generalize s.pc q = c at hplaced halone hkept hupd
  cases c with
  | iget k name dev ino =>
    obtain ⟨hnone, hrest⟩ := hplaced
    exact ⟨by rw [hkept k hq (.inl rfl), hnone], hrest⟩
  | igetRead k name =>
    obtain ⟨y, ha, hleads, himount⟩ := hplaced
    obtain ⟨hy, ha'⟩ := halone k y rfl ha
    exact ⟨y, ha', by rwa [a.inode y hy], by rwa [a.inode y hy]⟩
  | itrunc k =>
    obtain ⟨y, ha⟩ := hplaced
    exact ⟨y, (halone k y rfl ha).2⟩
  | iupdat k dev ino =>
    obtain ⟨y, ha, hname⟩ := hplaced
    obtain ⟨hy, ha'⟩ := halone k y rfl ha
    exact ⟨y, ha', by rw [a.inode y hy, hname]⟩
  | iupdatWrite k =>
    obtain ⟨y, ha⟩ := hplaced
    exact ⟨y, (halone k y rfl ha).2⟩
  | updRead y dev ino =>
    obtain ⟨hused, hname⟩ := hplaced
    -- the slot that `update` writes may be the one that changed, and still has its name
    by_cases hy : y = x
    · subst hy
      obtain ⟨hused', hname'⟩ := hupd rfl
      exact ⟨hused', hname'.trans hname⟩
    · exact ⟨by rwa [a.refs hy], by rw [a.inode y hy, hname]⟩
  | updWrite y =>
    change s'.refs y ≠ 0
    by_cases hy : y = x
    · subst hy
      exact (hupd rfl).1
    · rwa [a.refs hy]
  | _ => trivial

/-- Such a step keeps the invariant. -/
theorem Inv.act (h : s.Inv M) (a : Acts M s s' p x) : s'.Inv M := by
  refine ⟨fun y => ?_, fun y y' hy hy' hname => ?_, fun q j hj => ?_, fun q j hj => ?_,
    fun q j hj r hr => ?_, fun q => ?_, fun m y hm => ?_⟩
  · -- only the slot `x` has changed
    by_cases hy : y = x
    · rw [hy]
      exact a.slot
    · have hslot := h.slot y
      refine ⟨?_, ?_, ?_, ?_, ?_⟩
      · rw [a.inode y hy, a.refs hy, hslot.count]
      · rw [a.refs hy]
        exact hslot.bound
      · rw [a.inode y hy, a.refs hy]
        exact hslot.free
      · rw [a.inode y hy, a.refs hy]
        exact hslot.used
      · rw [a.inode y hy]
        exact hslot.mounted
  · -- Two slots with one name: both old, or one of them is `x`.
    have hother : ∀ z, z ≠ x → s'.refs z ≠ 0 → s'.refs x ≠ 0 →
        (s'.inode z).name = (s'.inode x).name → z = x := by
      intro z hz hzrefs hiprefs heq
      rw [a.inode z hz] at heq
      rw [a.refs hz] at hzrefs
      rcases a.name hiprefs with ⟨hold, hsame⟩ | hfresh
      · exact h.unique z x hzrefs hold (heq.trans hsame)
      · exact absurd heq (hfresh z hz hzrefs)
    by_cases hyip : y = x
    · by_cases hyip' : y' = x
      · rw [hyip, hyip']
      · subst hyip
        exact (hother y' hyip' hy' hy hname.symm).symm
    · by_cases hyip' : y' = x
      · subst hyip'
        exact hother y hyip hy hy' hname
      · rw [a.inode y hyip, a.inode y' hyip'] at hname
        rw [a.refs hyip] at hy
        rw [a.refs hyip'] at hy'
        exact h.unique y y' hy hy' hname
  · by_cases hq : q = p
    · subst hq
      -- locked holders point to a slot
      exact a.pinned j hj
    · rw [a.locked q hq] at hj
      rw [a.kept q j hq (.inr (.inl hj))]
      exact h.pinned q j hj
  · by_cases hq : q = p
    · subst hq
      -- so do those that a process waits for
      exact a.waits j hj
    · rw [a.pc q hq] at hj
      rw [a.kept q j hq (.inr (.inr hj))]
      exact h.waits q j hj
  · by_cases hq : q = p
    · subst hq
      rw [a.pc r hr, a.locked r hr]
      -- nobody else is at the holder of a process
      exact a.priv j hj r hr
    · rw [a.pc q hq] at hj
      by_cases hrp : r = p
      · subst hrp
        obtain ⟨hlocked, hwait⟩ := a.others q j hq hj
        exact ⟨fun hholder => (a.priv j hholder q hq).1 hj, hlocked, hwait⟩
      · rw [a.pc r hrp, a.locked r hrp]
        exact h.priv q j hj r hr
  · by_cases hq : q = p
    · rw [hq]
      exact a.placed
    · rw [a.pc q hq]
      exact a.placed_other h hq
  · -- mount points stay
    obtain ⟨href, hname, himount, hsettled⟩ := h.mounts m y hm
    have hmref := a.mref m (by rw [hm]; nofun)
    have hslot : (s'.inode y).name = (s.inode y).name ∧
        (s'.inode y).imount = (s.inode y).imount := by
      by_cases hy : y = x
      · subst hy
        exact a.mount m hm
      · rw [a.inode y hy]
        exact ⟨rfl, rfl⟩
    refine ⟨by rw [hmref.1, href], by rw [hslot.1, hname], by rw [hslot.2, himount], fun q => ?_⟩
    by_cases hq : q = p
    · rw [hq]
      exact hmref.2
    · rw [a.pc q hq]
      exact hsettled q

variable [DecidableEq π]

/-- A process goes on, and the reference stays alone. -/
theorem Alone.goto {c : IgetPc κ} (ha : s.Alone q k x)
    (hupd : c.updating = none ∨ c.updating = (s.pc p).updating) : (s.goto p c).Alone q k x := by
  refine ⟨ha.ref, ha.one, ha.ilock, ha.locked, fun r => ?_⟩
  by_cases hr : r = p
  · subst hr
    simp only [InodeSys.goto, update_self]
    rcases hupd with hnone | hsame
    · rw [hnone]
      nofun
    · rw [hsame]
      exact ha.updating r
  · simp only [InodeSys.goto, update_of_ne hr]
    exact ha.updating r

/-- A process goes on, and another stands where it stood. -/
theorem Placed.goto {c c' : IgetPc κ} (hplaced : s.Placed M q c')
    (hupd : c.updating = none ∨ c.updating = (s.pc p).updating) :
    (s.goto p c).Placed M q c' := by
  cases c' with
  | igetRead k name =>
    obtain ⟨y, ha, hrest⟩ := hplaced
    exact ⟨y, ha.goto hupd, hrest⟩
  | itrunc k =>
    obtain ⟨y, ha⟩ := hplaced
    exact ⟨y, ha.goto hupd⟩
  | iupdat k dev ino =>
    obtain ⟨y, ha, hrest⟩ := hplaced
    exact ⟨y, ha.goto hupd, hrest⟩
  | iupdatWrite k =>
    obtain ⟨y, ha⟩ := hplaced
    exact ⟨y, ha.goto hupd⟩
  | _ => exact hplaced

/-- A process moves, and nothing else changes. -/
theorem Inv.goto {c : IgetPc κ} (h : s.Inv M)
    (hupd : c.updating = none ∨ c.updating = (s.pc p).updating)
    (hwait : ∀ j, c = .plock j → s.ref j ≠ none ∧ s.Settled j)
    (hpriv : ∀ j, c.holder = some j → s.Private p j ∧ ∀ m, M.m_inodp m ≠ none → j ≠ M.m_ref m)
    (hplaced : s.Placed M p c) : (s.goto p c).Inv M := by
  have hself : (s.goto p c).pc p = c := update_self ..
  have hother : ∀ q, q ≠ p → (s.goto p c).pc q = s.pc q := fun q hq => update_of_ne hq ..
  refine ⟨fun y => ⟨(h.slot y).1, (h.slot y).2, (h.slot y).3, (h.slot y).4, (h.slot y).5⟩,
    h.unique, h.pinned, fun q j hj => ?_, fun q j hj r hr => ?_, fun q => ?_, fun m y hm => ?_⟩
  · by_cases hq : q = p
    · rw [hq, hself] at hj
      exact (hwait j hj).1
    · rw [hother q hq] at hj
      exact h.waits q j hj
  · by_cases hq : q = p
    · subst hq
      rw [hself] at hj
      rw [hother r hr]
      exact (hpriv j hj).1 r hr
    · rw [hother q hq] at hj
      -- what `q` holds it has for itself, also against the process that moves
      by_cases hrp : r = p
      · subst hrp
        rw [hself]
        refine ⟨fun hholder => ((hpriv j hholder).1 q hq).1 hj, (h.priv q j hj r hr).2.1, ?_⟩
        exact fun heq => (hwait j heq).2 q hj
      · rw [hother r hrp]
        exact h.priv q j hj r hr
  · by_cases hq : q = p
    · rw [hq, hself]
      exact hplaced.goto hupd
    · rw [hother q hq]
      exact (h.placed q).goto hupd
  · obtain ⟨href, hname, himount, hsettled⟩ := h.mounts m y hm
    refine ⟨href, hname, himount, fun q => ?_⟩
    by_cases hq : q = p
    · rw [hq, hself]
      exact fun hholder => (hpriv _ hholder).2 m (by rw [hm]; nofun) rfl
    · rw [hother q hq]
      exact hsettled q

/-- A process goes to a place where it holds and waits for nothing. -/
theorem Inv.goto_free {c : IgetPc κ} (h : s.Inv M) (hupd : c.updating = none)
    (hholder : c.holder = none) (hwait : ∀ j, c ≠ .plock j) (hplaced : s.Placed M p c) :
    (s.goto p c).Inv M := by
  refine h.goto (.inl hupd) (fun j hj => absurd hj (hwait j)) (fun j hj => ?_) hplaced
  rw [hholder] at hj
  cases hj

/-! ## A reference comes, goes or stays -/

variable [DecidableEq κ]

/-- The process fills the holder `k` with a reference to the slot, which gets the fields `i`. -/
theorem Inv.fill {c : IgetPc κ} (h : s.Inv M) (hk : s.ref k = none)
    (hfree : ∀ q, q ≠ p → (s.pc q).holder ≠ some k) (hbound : s.refs x < 255)
    (hcount : (s'.inode x).i_count = (s.inode x).i_count + 1)
    (hnumber : (s'.inode x).i_number ≠ 0)
    (hname : s.refs x ≠ 0 ∧ (s'.inode x).name = (s.inode x).name ∧
        (s'.inode x).imount = (s.inode x).imount ∨
      s.refs x = 0 ∧ (s'.inode x).imount = false ∧
        ∀ y, y ≠ x → s.refs y ≠ 0 → (s.inode y).name ≠ (s'.inode x).name)
    (hshut : ∀ q j, q ≠ p → (s.pc q).holder = some j → s.ref j ≠ some x)
    (hinode : ∀ y, y ≠ x → s'.inode y = s.inode y) (href : s'.ref = update s.ref k (some x))
    (hpc : s'.pc = update s.pc p c) (hlocked : ∀ q, q ≠ p → s'.locked q = s.locked q)
    (hmine : ∀ j, s'.locked p j = true → j = k ∨ s.locked p j = true)
    (hupd : c.updating = none) (hwait : ∀ j, c ≠ .plock j)
    (hholder : ∀ j, c.holder = some j → j = k) (hplaced : s'.Placed M p c) : s'.Inv M := by
  have hself : s'.pc p = c := by rw [hpc, update_self]
  have hrefs := refs_update_some hk href
  have hpriv := h.private_of_none hk hfree
  have hkept : ∀ j, j ≠ k → s'.ref j = s.ref j := fun j hj => by rw [href, update_of_ne hj]
  have hslot := h.slot x
  refine h.act (p := p) (x := x) ⟨hinode, fun j y hy => ?_, fun q hq => ?_, hlocked, ?_,
    fun q j hq hj => ?_, fun m hm => ⟨?_, ?_⟩, hshut, ⟨?_, ?_, ?_, ?_, ?_⟩, fun _ => ?_,
    fun q hq hqupd => ?_, fun m hm => ?_, fun j hj => ?_, fun j hj => ?_, fun j hj => ?_,
    fun q j hq hj => ⟨?_, ?_⟩, ?_⟩
  · -- who points to another slot
    by_cases hj : j = k
    · rw [hj, hk, href, update_self]
      exact iff_of_false (fun heq => hy (Option.some.inj heq).symm) nofun
    · rw [hkept j hj]
  · rw [hpc, update_of_ne hq]
  · rw [hself]
    exact .inl hupd
  · -- the holder was empty, so it is not one that others use
    apply hkept
    rintro rfl
    obtain ⟨hpriv₁, hpriv₂, hpriv₃⟩ := hpriv q hq
    rcases hj with hj | hj | hj
    · exact hpriv₁ hj
    · rw [hpriv₂] at hj
      cases hj
    · exact hpriv₃ hj
  · exact hkept _ (h.ne_mref hk m hm)
  · rw [hself]
    exact fun heq => h.ne_mref hk m hm (hholder _ heq)
  · -- one reference more, and one more in the count
    rw [hcount, hslot.count, hrefs]
    exact (BitVec.ofNat_add (s.refs x) 1).symm
  · omega
  · omega
  · exact fun _ => hnumber
  · -- a slot that is taken is no mount point
    intro himount
    rcases hname with ⟨-, -, hsame⟩ | ⟨-, hfalse, -⟩
    · rw [hsame] at himount
      exact hslot.mounted himount
    · rw [hfalse] at himount
      cases himount
  · rcases hname with ⟨hused, hsame, -⟩ | ⟨-, -, hfresh⟩
    · exact .inl ⟨hused, hsame⟩
    · exact .inr hfresh
  · -- an inode that is written has a reference
    have hused : s.refs x ≠ 0 := by
      have hplaced := h.placed q
      cases hqpc : s.pc q <;> rw [hqpc] at hqupd hplaced <;> cases hqupd
      · exact hplaced.1
      · exact hplaced
    rcases hname with ⟨-, hsame, -⟩ | ⟨hzero, -⟩
    · exact ⟨by omega, hsame⟩
    · exact absurd hzero hused
  · have hused := refs_pos (h.mounts m x hm).1
    rcases hname with ⟨-, hsame⟩ | ⟨hzero, -⟩
    · exact hsame
    · exact absurd hzero hused
  · -- what the process has locked
    by_cases hjk : j = k
    · rw [hjk, href, update_self]
      nofun
    · rw [hkept j hjk]
      rcases hmine j hj with heq | hold
      · exact absurd heq hjk
      · exact h.pinned p j hold
  · rw [hself] at hj
    exact absurd hj (hwait j)
  · rw [hself] at hj
    rw [hholder j hj]
    exact hpriv
  · by_contra hlock
    rcases hmine j (by simpa using hlock) with heq | hold
    · exact hfree q hq (heq ▸ hj)
    · have hfalse := (h.priv q j hj p (Ne.symm hq)).2.1
      rw [hold] at hfalse
      cases hfalse
  · rw [hself]
    exact hwait j
  · rw [hself]
    exact hplaced

/-- The process empties the holder `k`, which pointed to the slot. -/
theorem Inv.clear {c : IgetPc κ} (h : s.Inv M) (hk : s.ref k = some x) (hpriv : s.Private p k)
    (hmref : ∀ m, M.m_inodp m ≠ none → M.m_ref m ≠ k)
    (hcount : (s'.inode x).i_count = (s.inode x).i_count + -1#8)
    (hlast : s.refs x = 1 → (∀ q, q ≠ p → (s.pc q).updating ≠ some x) ∧
      (s'.inode x).i_number = 0 ∧ (s'.inode x).iupd = false ∧ (s'.inode x).iacc = false ∧
      (s'.inode x).imount = false)
    (hmore : s.refs x ≠ 1 → (s'.inode x).name = (s.inode x).name ∧
      (s'.inode x).imount = (s.inode x).imount)
    (hinode : ∀ y, y ≠ x → s'.inode y = s.inode y) (href : s'.ref = update s.ref k none)
    (hpc : s'.pc = update s.pc p c) (hlocked : ∀ q, q ≠ p → s'.locked q = s.locked q)
    (hmine : ∀ j, s'.locked p j = true → s.locked p j = true ∧ j ≠ k)
    (hupd : c.updating = none) (hwait : ∀ j, c ≠ .plock j) (hholder : c.holder = none)
    (hplaced : s'.Placed M p c) : s'.Inv M := by
  have hself : s'.pc p = c := by rw [hpc, update_self]
  have hrefs := refs_update_none hk href
  have hkept : ∀ j, j ≠ k → s'.ref j = s.ref j := fun j hj => by rw [href, update_of_ne hj]
  have hslot := h.slot x
  have hbound := hslot.bound
  have hused := refs_pos hk
  refine h.act (p := p) (x := x) ⟨hinode, fun j y hy => ?_, fun q hq => ?_, hlocked, ?_,
    fun q j hq hj => ?_, fun m hm => ⟨?_, ?_⟩, fun q j hq hj hjref => ?_, ⟨?_, ?_, ?_, ?_, ?_⟩,
    fun _ => ?_, fun q hq hqupd => ?_, fun m hm => ?_, fun j hj => ?_, fun j hj => ?_,
    fun j hj => ?_, fun q j hq hj => ⟨?_, ?_⟩, ?_⟩
  · -- who points to another slot
    by_cases hj : j = k
    · rw [hj, hk, href, update_self]
      exact iff_of_false nofun fun heq => hy (Option.some.inj heq).symm
    · rw [hkept j hj]
  · rw [hpc, update_of_ne hq]
  · rw [hself]
    exact .inl hupd
  · apply hkept
    rintro rfl
    obtain ⟨hpriv₁, hpriv₂, hpriv₃⟩ := hpriv q hq
    rcases hj with hj | hj | hj
    · exact hpriv₁ hj
    · rw [hpriv₂] at hj
      cases hj
    · exact hpriv₃ hj
  · exact hkept _ (hmref m hm)
  · rw [hself, hholder]
    nofun
  · -- Another process inside `iget` or `iput` would have the only reference.
    have halone := h.alone_of_holder hj hjref
    rw [← ref_unique halone.one hjref hk] at hj
    exact (hpriv q hq).1 hj
  · -- one reference less, and one less in the count
    have hprev : s.refs x = s'.refs x + 1 := hrefs.symm
    rw [hcount, hslot.count, hprev, BitVec.ofNat_add, ← BitVec.sub_eq_add_neg,
      BitVec.add_sub_cancel]
  · omega
  · intro hzero
    -- the slot is free when this was the last one
    obtain ⟨-, hnumber, hiupd, hiacc, -⟩ := hlast (by omega)
    exact ⟨hnumber, hiupd, hiacc⟩
  · intro hrest
    -- otherwise it keeps its name
    have hname := (hmore (by omega)).1
    have hnumber : (s'.inode x).i_number = (s.inode x).i_number := congrArg Prod.snd hname
    rw [hnumber]
    exact hslot.used hused
  · intro himount
    by_cases hone : s.refs x = 1
    · rw [(hlast hone).2.2.2.2] at himount
      cases himount
    · rw [(hmore hone).2] at himount
      exact hslot.mounted himount
  · exact .inl ⟨hused, (hmore (by omega)).1⟩
  · by_cases hone : s.refs x = 1
    · exact absurd hqupd ((hlast hone).1 q hq)
    · exact ⟨by omega, (hmore hone).1⟩
  · -- the mount table has a reference of its own
    have hmany : s.refs x ≠ 1 := by
      intro hone
      have hsame := ref_unique hone hk (h.mounts m x hm).1
      exact hmref m (by rw [hm]; nofun) hsame
    exact hmore hmany
  · obtain ⟨hold, hne⟩ := hmine j hj
    rw [hkept j hne]
    exact h.pinned p j hold
  · rw [hself] at hj
    exact absurd hj (hwait j)
  · rw [hself, hholder] at hj
    cases hj
  · by_contra hlock
    have hold := (hmine j (by simpa using hlock)).1
    have hfalse := (h.priv q j hj p (Ne.symm hq)).2.1
    rw [hold] at hfalse
    cases hfalse
  · rw [hself]
    exact hwait j
  · rw [hself]
    exact hplaced

omit [DecidableEq κ] in
/-- The process locks, unlocks or changes a slot that is in use. -/
theorem Inv.touch {c : IgetPc κ} (h : s.Inv M) (hused : s.refs x ≠ 0)
    (hsame : (s'.inode x).i_count = (s.inode x).i_count ∧
      (s'.inode x).name = (s.inode x).name ∧ (s'.inode x).imount = (s.inode x).imount)
    (hshut : ∀ q j, q ≠ p → (s.pc q).holder = some j → s.ref j ≠ some x)
    (hinode : ∀ y, y ≠ x → s'.inode y = s.inode y) (href : s'.ref = s.ref)
    (hpc : s'.pc = update s.pc p c) (hlocked : ∀ q, q ≠ p → s'.locked q = s.locked q)
    (hmine : ∀ j, s'.locked p j = true → s.ref j = some x ∨ s.locked p j = true)
    (hupd : c.updating = none ∨ c.updating = some x) (hwait : ∀ j, c ≠ .plock j)
    (hholder : c.holder = none ∨ c.holder = (s.pc p).holder)
    (hplaced : s'.Placed M p c) : s'.Inv M := by
  have hself : s'.pc p = c := by rw [hpc, update_self]
  have hrefs : ∀ y, s'.refs y = s.refs y := fun y => by simp only [refs, href]
  have hnumber : (s'.inode x).i_number = (s.inode x).i_number := congrArg Prod.snd hsame.2.1
  have hslot := h.slot x
  refine h.act (p := p) (x := x) ⟨hinode, fun j y _ => by rw [href], fun q hq => ?_, hlocked, ?_,
    fun q j _ _ => by rw [href], fun m hm => ⟨by rw [href], ?_⟩, hshut, ⟨?_, ?_, ?_, ?_, ?_⟩,
    fun _ => .inl ⟨hused, hsame.2.1⟩, fun q _ _ => ⟨by rwa [hrefs], hsame.2.1⟩,
    fun m _ => hsame.2, fun j hj => ?_, fun j hj => ?_, fun j hj => ?_,
    fun q j hq hj => ⟨?_, ?_⟩, ?_⟩
  · rw [hpc, update_of_ne hq]
  · rw [hself]
    exact hupd
  · rw [hself]
    -- the holder is no mount point
    rcases hholder with hnone | hold
    · rw [hnone]
      exact (Option.some_ne_none _).symm
    · rw [hold]
      obtain ⟨y, hy⟩ := Option.ne_none_iff_exists'.mp hm
      exact (h.mounts m y hy).2.2.2 p
  · rw [hsame.1, hrefs, hslot.count]
  · rw [hrefs]
    exact hslot.bound
  · exact fun hzero => absurd (hrefs x ▸ hzero) hused
  · rw [hnumber]
    exact fun _ => hslot.used hused
  · rw [hsame.2.2]
    exact hslot.mounted
  · rw [href]
    -- what the process has locked points to a slot
    rcases hmine j hj with hthis | hold
    · rw [hthis]
      exact Option.some_ne_none _
    · exact h.pinned p j hold
  · rw [hself] at hj
    exact absurd hj (hwait j)
  · rw [hself] at hj
    rcases hholder with hnone | hold
    · rw [hnone] at hj
      cases hj
    · rw [hold] at hj
      exact h.priv p j hj
  · by_contra hlock
    rcases hmine j (by simpa using hlock) with hthis | hold
    · exact hshut q j hq hj hthis
    · have hfalse := (h.priv q j hj p (Ne.symm hq)).2.1
      rw [hold] at hfalse
      cases hfalse
  · rw [hself]
    exact hwait j
  · rw [hself]
    exact hplaced

/-! ## The routines -/

omit [Fintype κ] [DecidableEq κ] in
/-- A process goes on twice. -/
theorem goto_goto (s : InodeSys π κ) (p : π) (c c' : IgetPc κ) :
    (s.goto p c).goto p c' = s.goto p c' := by
  simp only [goto, update_idem]

omit [DecidableEq π] in
/-- Only a process that shares no holder with others can meet another one inside `iget` or `iput`
for the same slot, and then the slot has two references. -/
theorem Inv.shut_of_ref (h : s.Inv M) (hk : s.ref k = some x)
    (hfree : ∀ q, q ≠ p → (s.pc q).holder ≠ some k) (q : π) (j : κ) (hq : q ≠ p)
    (hj : (s.pc q).holder = some j) : s.ref j ≠ some x := by
  intro hjref
  have halone := h.alone_of_holder hj hjref
  rw [← ref_unique halone.one hjref hk] at hj
  exact hfree q hq hj

omit [DecidableEq π] [DecidableEq κ] in
/-- Nobody else has an unlocked slot for itself. -/
theorem Inv.shut_of_unlocked (h : s.Inv M) (hlock : (s.inode x).ilock = false) (q : π) (j : κ)
    (hj : (s.pc q).holder = some j) : s.ref j ≠ some x := by
  intro hjref
  have hilock := (h.alone_of_holder hj hjref).ilock
  rw [hlock] at hilock
  cases hilock

omit [Fintype κ] [DecidableEq κ] in
/-- What is still locked after an inode has been unlocked. -/
theorem unlocked_locked {j : κ} (h : (s.unlocked p x).locked p j = true) :
    s.locked p j = true ∧ s.ref j ≠ some x := by
  simpa only [unlocked, update_self, Bool.and_eq_true, bne_iff_ne] using h

omit [Fintype κ] in
/-- What is locked after a reference has been. -/
theorem setLocked_locked {j : κ} (h : (s.setLocked p k).locked p j = true) :
    j = k ∨ s.locked p j = true := by
  simp only [setLocked, update_self] at h
  by_cases hj : j = k
  · exact .inl hj
  · rw [update_of_ne hj] at h
    exact .inr h

/-- The end of `iput` frees the slot. -/
theorem Inv.iputDone (h : s.Inv M) (ha : s.Alone p k x) (hpriv : s.Private p k)
    (hmref : ∀ m, M.m_inodp m ≠ none → M.m_ref m ≠ k) : (s.iputDone p k x).Inv M := by
  have hself : (s.iputDone p k x).inode x = { s.inode x with
      ilock := false, iupd := false, iacc := false, imount := false, iwant := false
      i_count := (s.inode x).i_count + -1#8, i_number := 0 } := update_self ..
  refine h.clear (c := .idle) ha.ref hpriv hmref ?_ (fun _ => ⟨fun q _ => ha.updating q, ?_⟩)
    (fun hmany => absurd ha.one hmany) (fun y hy => update_of_ne hy ..) rfl rfl
    (fun q hq => update_of_ne hq ..) (fun j hj => ?_) rfl nofun rfl trivial
  · rw [hself]
  · rw [hself]
    exact ⟨rfl, rfl, rfl, rfl⟩
  · obtain ⟨hold, hne⟩ := unlocked_locked (x := x) hj
    refine ⟨hold, ?_⟩
    rintro rfl
    exact hne ha.ref

/-- `iput` goes on to write the inode. -/
theorem Inv.iputUpdat (h : s.Inv M) (ha : s.Alone p k x) (hpriv : s.Private p k)
    (hmref : ∀ m, M.m_inodp m ≠ none → M.m_ref m ≠ k) : (s.iputUpdat M p k x).Inv M := by
  unfold InodeSys.iputUpdat
  split
  case h_1 dev ino hslot =>
    have hname : (s.inode x).name = (dev, ino) := by
      unfold iupdatSlot at hslot
      split at hslot
      · exact Option.some.inj hslot
      · cases hslot
    refine h.goto (.inl rfl) nofun (fun j hj => ?_) ⟨x, ha, hname⟩
    cases hj
    exact ⟨hpriv, fun m hm => (hmref m hm).symm⟩
  case h_2 => exact h.iputDone ha hpriv hmref

omit [Fintype κ] in
/-- `iput` does not depend on where the process stands. -/
theorem iputUpdat_goto (s : InodeSys π κ) (p : π) (k : κ) (x : InodePtr) (c : IgetPc κ) :
    (s.goto p c).iputUpdat M p k x = s.iputUpdat M p k x := by
  unfold iputUpdat
  cases hslot : iupdatSlot M (s.inode x) with
  | none =>
    have hslot' : iupdatSlot M ((s.goto p c).inode x) = none := hslot
    rw [hslot']
    simp only [iputDone, setInode, unlocked, setRef, goto, update_idem]
  | some target =>
    have hslot' : iupdatSlot M ((s.goto p c).inode x) = some target := hslot
    rw [hslot']
    exact goto_goto ..

/-- `iput` gives up a reference, and writes the inode with the last one. -/
theorem Inv.iput (h : s.Inv M) (hk : s.ref k = some x) (hpriv : s.Private p k)
    (hmref : ∀ m, M.m_inodp m ≠ none → M.m_ref m ≠ k)
    (hupd : (s.inode x).i_count = 1 → ∀ q, (s.pc q).updating ≠ some x) :
    (s.iput M p k x).Inv M := by
  have hshut := h.shut_of_ref hk fun q hq => (hpriv q hq).1
  unfold InodeSys.iput
  dsimp only
  split
  case isTrue hcount =>
    -- The slot is locked first; from there on it belongs to this `iput`.
    obtain ⟨s₁, hs₁⟩ : ∃ s₁, s₁ = (s.setInode x { s.inode x with ilock := true }).setLocked p k :=
      ⟨_, rfl⟩
    rw [← hs₁]
    have hinode : s₁.inode x = { s.inode x with ilock := true } := by
      rw [hs₁]
      exact update_self ..
    have hinv : (s₁.goto p .idle).Inv M := by
      rw [hs₁]
      refine h.touch (p := p) (x := x) (c := .idle) (refs_pos hk) ⟨?_, ?_, ?_⟩ hshut
        (fun y hy => update_of_ne hy ..) rfl rfl (fun q hq => update_of_ne hq ..) (fun j hj => ?_)
        (.inl rfl) nofun (.inl rfl) trivial
      · simp only [InodeSys.goto, setLocked, setInode, update_self]
      · simp only [InodeSys.goto, setLocked, setInode, update_self]
        rfl
      · simp only [InodeSys.goto, setLocked, setInode, update_self]
      · rcases setLocked_locked (s := s.setInode x { s.inode x with ilock := true }) hj with
          rfl | hold
        · exact .inl hk
        · exact .inr hold
    have halone : (s₁.goto p .idle).Alone p k x := by
      refine ⟨?_, ?_, ?_, ?_, fun q => ?_⟩
      · rw [hs₁]
        exact hk
      · rw [hs₁]
        exact (h.slot x).refs_eq_one hcount
      · change (s₁.inode x).ilock = true
        rw [hinode]
      · rw [hs₁]
        simp only [InodeSys.goto, setLocked, update_self]
      · by_cases hq : q = p
        · subst hq
          simp only [InodeSys.goto, update_self]
          nofun
        · simp only [InodeSys.goto, update_of_ne hq]
          rw [hs₁]
          exact hupd hcount q
    have hpriv' : (s₁.goto p .idle).Private p k := by
      intro q hq
      simp only [InodeSys.goto, update_of_ne hq]
      rw [hs₁]
      simp only [setLocked, update_of_ne hq]
      exact hpriv q hq
    split
    case isTrue =>
      rw [← goto_goto s₁ p .idle]
      refine hinv.goto (.inl rfl) nofun (fun j hj => ?_) ⟨x, halone⟩
      cases hj
      exact ⟨hpriv', fun m hm => (hmref m hm).symm⟩
    case isFalse =>
      rw [← iputUpdat_goto s₁ p k x .idle]
      exact hinv.iputUpdat halone hpriv' hmref
  case isFalse hcount =>
    have hmany : s.refs x ≠ 1 := by
      intro hone
      apply hcount
      rw [(h.slot x).count, hone]
      rfl
    refine h.clear (p := p) (c := .idle) hk hpriv hmref ?_ (fun hone => absurd hone hmany)
      (fun _ => ?_) (fun y hy => update_of_ne hy ..) rfl rfl (fun q hq => update_of_ne hq ..)
      (fun j hj => ?_) rfl nofun rfl trivial
    · simp only [InodeSys.goto, setRef, unlocked, setInode, update_self]
    · simp only [InodeSys.goto, setRef, unlocked, setInode, update_self]
      exact ⟨rfl, trivial⟩
    · obtain ⟨hold, hne⟩ := unlocked_locked (s := s.setInode x { s.inode x with
        i_count := (s.inode x).i_count + -1#8, ilock := false, iwant := false }) hj
      refine ⟨hold, ?_⟩
      rintro rfl
      exact hne hk

omit [DecidableEq π] [DecidableEq κ] in
/-- A sleeper leaves its mark. -/
theorem Inv.want (h : s.Inv M) (x : InodePtr) :
    (s.setInode x { s.inode x with iwant := true }).Inv M := by
  refine h.quiet (fun y => ?_) rfl rfl rfl
  by_cases hy : y = x
  · subst hy
    simp only [setInode, update_self]
    exact ⟨trivial, rfl, trivial, trivial, trivial, trivial⟩
  · simp only [setInode, update_of_ne hy, and_self]

/-- `plock` locks the inode or sleeps. -/
theorem Inv.plock (h : s.Inv M) (hk : s.ref k = some x) (hset : s.Settled k) :
    (s.plock p k x).Inv M := by
  unfold InodeSys.plock
  split
  case isTrue hlock =>
    have hwant := h.want x
    refine hwant.goto (.inl rfl) (fun j hj => ?_) nofun trivial
    cases hj
    refine ⟨?_, hset⟩
    change s.ref k ≠ none
    rw [hk]
    nofun
  case isFalse hlock =>
    have hshut := h.shut_of_unlocked (by simpa using hlock)
    refine h.touch (p := p) (x := x) (c := .idle) (refs_pos hk) ?_ (fun q j _ hj => hshut q j hj)
      (fun y hy => update_of_ne hy ..) rfl rfl (fun q hq => update_of_ne hq ..) (fun j hj => ?_)
      (.inl rfl) nofun (.inl rfl) trivial
    · simp only [InodeSys.goto, setLocked, setInode, update_self]
      exact ⟨trivial, rfl, trivial⟩
    · rcases setLocked_locked (s := s.setInode x { s.inode x with ilock := true }) hj with
        rfl | hold
      · exact .inl hk
      · exact .inr hold

/-- `prele` by a process that uses the slot through the settled holder `k`. -/
theorem Inv.prele (h : s.Inv M) (hp : s.pc p = .idle) (hk : s.ref k = some x)
    (hset : s.Settled k) : ((s.prele x).unlocked p x).Inv M := by
  refine h.touch (p := p) (x := x) (c := .idle) (refs_pos hk) ?_
    (h.shut_of_ref hk fun q _ => hset q) (fun y hy => update_of_ne hy ..) rfl ?_
    (fun q hq => update_of_ne hq ..) (fun j hj => .inr ?_) (.inl rfl) nofun (.inl rfl) trivial
  · simp only [unlocked, InodeSys.prele, setInode, update_self]
    exact ⟨trivial, rfl, trivial⟩
  · rw [← hp, update_eq_self]
    rfl
  · exact (unlocked_locked (s := s.prele x) hj).1

/-- A settled reference gets a second holder. -/
theorem Inv.share {k' : κ} (h : s.Inv M) (hp : s.pc p = .idle) (hk : s.ref k = some x)
    (hset : s.Settled k) (hset' : s.Settled k') (hk' : s.ref k' = none) (hbound : s.refs x < 255) :
    ((s.setInode x { s.inode x with i_count := (s.inode x).i_count + 1 }).setRef k'
      (some x)).Inv M := by
  refine h.fill (p := p) (c := .idle) hk' (fun q _ => hset' q) hbound ?_ ?_
    (.inl ⟨refs_pos hk, ?_⟩) (h.shut_of_ref hk fun q _ => hset q) (fun y hy => update_of_ne hy ..)
    rfl ?_ (fun _ _ => rfl) (fun j hj => .inr hj) rfl nofun nofun trivial
  · simp only [setRef, setInode, update_self]
  · simp only [setRef, setInode, update_self]
    exact (h.slot x).used (refs_pos hk)
  · simp only [setRef, setInode, update_self]
    exact ⟨rfl, trivial⟩
  · rw [← hp, update_eq_self]
    rfl

/-- A settled reference is used to change the inode. -/
theorem Inv.modify (h : s.Inv M) (hp : s.pc p = .idle) (hk : s.ref k = some x)
    (hset : s.Settled k) (d : Dinode) (iupd iacc : Bool) :
    (s.setInode x { s.inode x with toDinode := d, iupd := iupd, iacc := iacc }).Inv M := by
  refine h.touch (p := p) (x := x) (c := .idle) (refs_pos hk) ?_
    (h.shut_of_ref hk fun q _ => hset q) (fun y hy => update_of_ne hy ..) rfl ?_ (fun _ _ => rfl)
    (fun j hj => .inr hj) (.inl rfl) nofun (.inl rfl) trivial
  · simp only [setInode, update_self]
    exact ⟨trivial, rfl, trivial⟩
  · rw [← hp, update_eq_self]
    rfl

omit [Fintype κ] [DecidableEq π] [DecidableEq κ] in
/-- The slot that `iget` stops at is the inode it looks for. -/
theorem findInode_some {dev ino : ℤ} (h : s.findInode dev ino = some x) :
    (s.inode x).name = (dev, ino) := by
  have hmatch := List.find?_some h
  simp only [Bool.and_eq_true, beq_iff_eq] at hmatch
  exact Prod.ext hmatch.1 hmatch.2

omit [Fintype κ] [DecidableEq π] [DecidableEq κ] in
/-- `iget` does not find the inode in core. -/
theorem findInode_none {dev ino : ℤ} (h : s.findInode dev ino = none) (y : InodePtr) :
    (s.inode y).name ≠ (dev, ino) := by
  have hmatch := List.find?_eq_none.mp h y (List.mem_finRange y)
  simp only [Bool.and_eq_true, beq_iff_eq, not_and] at hmatch
  intro hname
  exact hmatch (congrArg Prod.fst hname) (congrArg Prod.snd hname)

omit [Fintype κ] [DecidableEq π] [DecidableEq κ] in
theorem findFree_some (h : s.findFree = some x) : (s.inode x).i_count = 0 := by
  simpa using List.find?_some h

omit [Fintype κ] [DecidableEq κ] in
/-- The mount table names the inode that is mounted on. -/
theorem findMount_some {m : Fin NMOUNT} (h : findMount M x = some m) : M.m_inodp m = some x := by
  simpa using List.find?_some h

/-- One pass of `iget`. -/
theorem Inv.iget {name : ℤ × ℤ} {dev ino : ℤ} (h : s.Inv M) (hk : s.ref k = none)
    (hfree : ∀ q, q ≠ p → (s.pc q).holder ≠ some k) (hino : ino ≠ 0)
    (hleads : M.Leads name (dev, ino))
    (hbound : ∀ x, s.findInode dev ino = some x → s.refs x < 255)
    (hs : s.iget M p k name dev ino = some s') : s'.Inv M := by
  have hpriv := h.private_of_none hk hfree
  have hnotmref : ∀ m, M.m_inodp m ≠ none → k ≠ M.m_ref m := fun m hm => (h.ne_mref hk m hm).symm
  unfold InodeSys.iget at hs
  split at hs
  case h_1 x hip =>
    have hname := findInode_some hip
    have hnumber : (s.inode x).i_number = ino := congrArg Prod.snd hname
    have hused : s.refs x ≠ 0 := by
      intro hzero
      have hnum := ((h.slot x).free hzero).1
      exact hino (hnumber.symm.trans hnum)
    dsimp only at hs
    split at hs
    case isTrue hlock =>
      cases hs
      -- the slot is locked: wait, and look again
      have hwant := h.want x
      refine hwant.goto (.inl rfl) nofun (fun j hj => ?_) ⟨hk, hino, hleads⟩
      cases hj
      exact ⟨hpriv, hnotmref⟩
    case isFalse hlock =>
      split at hs
      case isTrue himount =>
        split at hs
        case h_1 m hm =>
          cases hs
          -- a mount point: go on with the root of the other device
          have hin := findMount_some hm
          have hcross : M.Crosses (dev, ino) (M.m_dev m, ROOTINO) := by
            refine ⟨m, by rw [hin]; nofun, ?_, rfl⟩
            rw [← hname]
            exact (h.mounts m x hin).2.1
          refine h.goto (.inl rfl) nofun (fun j hj => ?_) ⟨hk, by decide, hleads.tail hcross⟩
          cases hj
          exact ⟨hpriv, hnotmref⟩
        case h_2 => cases hs
      case isFalse himount =>
        cases hs
        -- the slot is taken once more
        have hshut := h.shut_of_unlocked (by simpa using hlock)
        refine h.fill (p := p) (c := .idle) hk hfree (hbound x hip) ?_ ?_ (.inl ⟨hused, ?_⟩)
          (fun q j _ hj => hshut q j hj) (fun y hy => update_of_ne hy ..) rfl rfl
          (fun q hq => update_of_ne hq ..) (fun j hj => ?_) rfl nofun nofun trivial
        · simp only [InodeSys.goto, take, setLocked, setRef, setInode, update_self]
        · simp only [InodeSys.goto, take, setLocked, setRef, setInode, update_self]
          exact (h.slot x).used hused
        · simp only [InodeSys.goto, take, setLocked, setRef, setInode, update_self]
          exact ⟨rfl, trivial⟩
        · exact setLocked_locked (s := (s.setInode x { s.inode x with
            i_count := (s.inode x).i_count + 1, ilock := true }).setRef k (some x)) hj
  case h_2 hnone =>
    split at hs
    case h_1 =>
      cases hs
      -- the table is full
      exact h.goto_free rfl rfl nofun trivial
    case h_2 x hip =>
      -- a free slot is taken, and nobody else knows of it
      have hzero := (h.slot x).refs_eq_zero (findFree_some hip)
      have hnoref : ∀ q, (s.pc q).updating ≠ some x := by
        intro q hq
        have hplaced := h.placed q
        cases hqpc : s.pc q <;> rw [hqpc] at hq hplaced <;> cases hq
        · exact hplaced.1 hzero
        · exact hplaced hzero
      cases hs
      have hshut : ∀ q j, q ≠ p → (s.pc q).holder = some j → s.ref j ≠ some x :=
        fun q j _ _ hjref => refs_pos hjref hzero
      refine h.fill (p := p) (x := x) (c := .igetRead k name) hk hfree (by omega) ?_ ?_
        (.inr ⟨hzero, ?_, fun y _ hy => ?_⟩) hshut (fun y hy => update_of_ne hy ..) rfl rfl
        (fun q hq => update_of_ne hq ..) (fun j hj => ?_) rfl nofun (fun j hj => ?_)
        ⟨x, ⟨?_, ?_, ?_, ?_, fun q => ?_⟩, ?_, ?_⟩
      · simp only [InodeSys.goto, take, setLocked, setRef, setInode, update_self]
      · simp only [InodeSys.goto, take, setLocked, setRef, setInode, update_self]
        exact hino
      · simp only [InodeSys.goto, take, setLocked, setRef, setInode, update_self]
      · simp only [InodeSys.goto, take, setLocked, setRef, setInode, update_self]
        exact findInode_none hnone y
      · exact setLocked_locked (s := (s.setInode x _).setRef k (some x)) hj
      · exact (Option.some.inj hj).symm
      · simp only [InodeSys.goto, take, setLocked, setRef, setInode, update_self]
      · exact (refs_update_some hk rfl).trans (by rw [hzero])
      · simp only [InodeSys.goto, take, setLocked, setRef, setInode, update_self]
      · simp only [InodeSys.goto, take, setLocked, setRef, setInode, update_self]
      · by_cases hq : q = p
        · subst hq
          simp only [InodeSys.goto, update_self]
          nofun
        · simp only [InodeSys.goto, update_of_ne hq]
          exact hnoref q
      · simp only [InodeSys.goto, take, setLocked, setRef, setInode, update_self]
        exact hleads
      · simp only [InodeSys.goto, take, setLocked, setRef, setInode, update_self]

omit [DecidableEq κ] in
theorem Inv.igetDone (h : s.Inv M) (p : π) (x : InodePtr) : (s.igetDone p x).Inv M := by
  have hread : (s.setInode x { s.inode x with
      toDinode := s.dinode (s.inode x).i_dev (s.inode x).i_number }).Inv M := by
    refine h.quiet (fun y => ?_) rfl rfl rfl
    by_cases hy : y = x
    · subst hy
      simp only [setInode, update_self]
      exact ⟨trivial, rfl, trivial, trivial, trivial, trivial⟩
    · simp only [setInode, update_of_ne hy, and_self]
  exact hread.goto_free rfl rfl nofun trivial

/-- The in-core inode has been truncated inside `iput`. -/
theorem Inv.truncate (h : s.Inv M) (hp : s.pc p = .itrunc k) (ha : s.Alone p k x) :
    ((s.setInode x (truncated (s.inode x))).iputUpdat M p k x).Inv M := by
  have hpriv := h.priv p k (by rw [hp]; rfl)
  have hsame : (truncated (s.inode x)).i_count = (s.inode x).i_count ∧
      (truncated (s.inode x)).name = (s.inode x).name ∧
      (truncated (s.inode x)).imount = (s.inode x).imount ∧
      (truncated (s.inode x)).ilock = (s.inode x).ilock := by
    unfold truncated
    split <;> exact ⟨rfl, rfl, rfl, rfl⟩
  obtain ⟨s₁, hs₁⟩ : ∃ s₁, s₁ = s.setInode x (truncated (s.inode x)) := ⟨_, rfl⟩
  rw [← hs₁]
  have hinode : s₁.inode x = truncated (s.inode x) := by
    rw [hs₁]
    exact update_self ..
  -- the slot is still locked, with one reference
  have halone : s₁.Alone p k x := by
    refine ⟨?_, ?_, ?_, ?_, ?_⟩
    · rw [hs₁]
      exact ha.ref
    · rw [hs₁]
      exact ha.one
    · rw [hinode, hsame.2.2.2]
      exact ha.ilock
    · rw [hs₁]
      exact ha.locked
    · rw [hs₁]
      exact ha.updating
  have hinv : s₁.Inv M := by
    refine h.touch (p := p) (x := x) (c := .itrunc k) (refs_pos ha.ref) ?_
      (h.shut_of_ref ha.ref fun q hq => (hpriv q hq).1) (fun y hy => ?_) ?_ ?_ ?_ (fun j hj => ?_)
      (.inl rfl) nofun (.inr ?_) ⟨x, halone⟩
    · rw [hinode]
      exact ⟨hsame.1, hsame.2.1, hsame.2.2.1⟩
    · rw [hs₁]
      exact update_of_ne hy ..
    · rw [hs₁]
      rfl
    · rw [hs₁, ← hp, update_eq_self]
      rfl
    · rw [hs₁]
      exact fun _ _ => rfl
    · rw [hs₁] at hj
      exact .inr hj
    · rw [hp]
  refine hinv.iputUpdat halone ?_ fun m hm heq => ?_
  · rw [hs₁]
    exact hpriv
  · obtain ⟨y, hy⟩ := Option.ne_none_iff_exists'.mp hm
    have hsettled := (h.mounts m y hy).2.2.2 p
    rw [hp, heq] at hsettled
    exact hsettled rfl

omit [DecidableEq π] [DecidableEq κ] in
/-- A slot with marks is in use. -/
theorem Inv.used_of_iupdat {target : ℤ × ℤ} (h : s.Inv M)
    (hslot : iupdatSlot M (s.inode x) = some target) :
    s.refs x ≠ 0 ∧ (s.inode x).name = target := by
  unfold iupdatSlot at hslot
  split at hslot
  case isTrue hmark =>
    refine ⟨fun hzero => ?_, Option.some.inj hslot⟩
    obtain ⟨-, hiupd, hiacc⟩ := (h.slot x).free hzero
    rw [hiupd, hiacc] at hmark
    simp at hmark
  case isFalse => cases hslot

omit [DecidableEq κ] in
theorem Inv.scan (h : s.Inv M) (p : π) (n : ℕ) : (s.scan M p n).Inv M := by
  unfold InodeSys.scan
  split
  case isTrue hn =>
    dsimp only
    split
    case isTrue => exact h.goto_free rfl rfl nofun trivial
    case isFalse hlock =>
      have hlock' : (s.inode ⟨n, hn⟩).ilock = false := by simpa using hlock
      have hinode : (s.setInode ⟨n, hn⟩ { s.inode ⟨n, hn⟩ with ilock := true }).inode ⟨n, hn⟩ =
        { s.inode ⟨n, hn⟩ with ilock := true } := update_self ..
      split
      case h_1 dev ino hslot =>
        rw [hinode] at hslot
        obtain ⟨hused, hname⟩ := h.used_of_iupdat (x := ⟨n, hn⟩) hslot
        refine h.touch (p := p) (x := ⟨n, hn⟩) (c := .updRead ⟨n, hn⟩ dev ino) hused ?_
          (fun q j _ hj => h.shut_of_unlocked hlock' q j hj) (fun y hy => update_of_ne hy ..) rfl rfl
          (fun _ _ => rfl) (fun j hj => .inr hj) (.inr rfl) nofun (.inl rfl) ⟨hused, ?_⟩
        · simp only [InodeSys.goto, setInode, update_self]
          exact ⟨trivial, rfl, trivial⟩
        · simp only [InodeSys.goto, setInode, update_self]
          exact hname
      case h_2 =>
        -- Nothing to write: the slot is locked and unlocked at once.
        have hquiet : ((s.setInode ⟨n, hn⟩ { s.inode ⟨n, hn⟩ with ilock := true }).prele
            ⟨n, hn⟩).Inv M := by
          refine h.quiet (fun y => ?_) rfl rfl rfl
          by_cases hy : y = ⟨n, hn⟩
          · subst hy
            simp only [InodeSys.prele, setInode, update_self]
            exact ⟨trivial, rfl, hlock'.symm, trivial, trivial, trivial⟩
          · simp only [InodeSys.prele, setInode, update_of_ne hy, and_self]
        exact hquiet.goto_free rfl rfl nofun trivial
  case isFalse =>
    have hlock : ({ s with updlock := false } : InodeSys π κ).Inv M :=
      h.quiet (fun _ => ⟨rfl, rfl, rfl, rfl, rfl, rfl⟩) rfl rfl rfl
    exact hlock.goto_free rfl rfl nofun trivial

omit [DecidableEq π] [DecidableEq κ] in
/-- `iupdat` writes the disk, nothing else. -/
theorem Inv.iupdatCopy (h : s.Inv M) (x : InodePtr) (dev ino : ℤ) :
    (s.iupdatCopy x dev ino).Inv M :=
  h.quiet (fun _ => ⟨rfl, rfl, rfl, rfl, rfl, rfl⟩) rfl rfl rfl

/-! ## Runs -/

/-- Before any process has entered the kernel: no locks, and a table in order. -/
structure Booted (M : MountTable κ) (s : InodeSys π κ) : Prop where
  idle : ∀ p, s.pc p = .idle
  unlocked : ∀ p k, s.locked p k = false
  slot : ∀ x, s.SlotOk M x
  unique : ∀ x x', s.refs x ≠ 0 → s.refs x' ≠ 0 →
    (s.inode x).name = (s.inode x').name → x = x'
  mounts : ∀ m x, M.m_inodp m = some x → s.ref (M.m_ref m) = some x ∧
    (s.inode x).name = M.m_name m ∧ (s.inode x).imount = true

/-- The last reference to an inode is not released while `update` is in its `iupdat` for it, and no
inode gets the 256 references at which `i_count` wraps. -/
def Ok (s : InodeSys π κ) : InodeAct π κ → Prop
  | .iput p k => ∀ x, s.ref k = some x → (s.inode x).i_count = 1 →
      ∀ q, q ≠ p → (s.pc q).updating ≠ some x
  | .iget _ _ dev ino => ∀ x, s.findInode dev ino = some x → s.refs x < 255
  | .run p _ =>
    match s.pc p with
    | .iget _ _ dev ino => ∀ x, s.findInode dev ino = some x → s.refs x < 255
    | _ => True
  | .share _ k _ => ∀ x, s.ref k = some x → s.refs x < 255
  | _ => True

instance [Fintype π] (s : InodeSys π κ) : (a : InodeAct π κ) → Decidable (s.Ok a)
  | .iput p k => inferInstanceAs (Decidable (∀ x, s.ref k = some x → (s.inode x).i_count = 1 →
      ∀ q, q ≠ p → (s.pc q).updating ≠ some x))
  | .iget _ _ dev ino => inferInstanceAs
      (Decidable (∀ x, s.findInode dev ino = some x → s.refs x < 255))
  | .run p _ =>
    match hpc : s.pc p with
    | .iget _ _ dev ino => decidable_of_iff
        (∀ x, s.findInode dev ino = some x → s.refs x < 255) (by rw [Ok, hpc])
    | .idle | .igetRead _ _ | .plock _ | .itrunc _ | .iupdat _ _ _ | .iupdatWrite _ | .super
    | .scan _ | .updRead _ _ _ | .updWrite _ => .isTrue (by rw [Ok, hpc]; trivial)
  | .share _ k _ => inferInstanceAs (Decidable (∀ x, s.ref k = some x → s.refs x < 255))
  | .plock _ _ | .prele _ _ | .update _ | .modify _ _ _ _ _ | .abandon _ => .isTrue trivial

omit [DecidableEq π] [DecidableEq κ] in
theorem Booted.inv (h : s.Booted M) : s.Inv M := by
  refine ⟨h.slot, h.unique, fun p k hlock => ?_, fun p k hpc => ?_, fun p k hpc => ?_, fun p => ?_,
    fun m x hm => ?_⟩
  · rw [h.unlocked] at hlock
    cases hlock
  · rw [h.idle] at hpc
    cases hpc
  · rw [h.idle] at hpc
    cases hpc
  · rw [h.idle]
    trivial
  · obtain ⟨href, hname, himount⟩ := h.mounts m x hm
    refine ⟨href, hname, himount, fun q => ?_⟩
    rw [h.idle]
    nofun

omit [DecidableEq π] [DecidableEq κ] in
/-- The holder of an `iget` or `iput` in progress is none of the mount table's. -/
theorem Inv.holder_ne_mref (h : s.Inv M) (hp : (s.pc p).holder = some k) (m : Fin NMOUNT)
    (hm : M.m_inodp m ≠ none) : M.m_ref m ≠ k := by
  rintro rfl
  obtain ⟨y, hy⟩ := Option.ne_none_iff_exists'.mp hm
  exact (h.mounts m y hy).2.2.2 p hp

/-- A process that wakes up goes on. -/
theorem Inv.run {error : Bool} (h : s.Inv M) (hok : s.Ok (.run p error))
    (hs : s.run M p error = some s') : s'.Inv M := by
  have hplaced := h.placed p
  have hpriv := h.priv p
  have hmref := fun k => h.holder_ne_mref (p := p) (k := k)
  unfold InodeSys.run at hs
  generalize hpc : s.pc p = c at hs hplaced hpriv hmref
  cases c with
  | idle => cases hs
  | iget k name dev ino =>
    obtain ⟨hk, hino, hleads⟩ := hplaced
    exact h.iget hk (fun q hq => (hpriv k rfl q hq).1) hino hleads (by rwa [Ok, hpc] at hok) hs
  | igetRead k name =>
    obtain ⟨x, ha, -⟩ := hplaced
    dsimp only at hs
    rw [ha.ref] at hs
    cases hs
    cases error with
    | false => exact h.igetDone p x
    -- the inode could not be read, and is put back
    | true => exact h.iput ha.ref (hpriv k rfl) (hmref k rfl) fun _ => ha.updating
  | plock k =>
    obtain ⟨x, hip, rfl⟩ := Option.map_eq_some_iff.mp hs
    refine h.plock hip fun q hq => ?_
    by_cases hqp : q = p
    · rw [hqp, hpc] at hq
      cases hq
    · exact (h.priv q k hq p (Ne.symm hqp)).2.2 hpc
  | itrunc k =>
    obtain ⟨x, ha⟩ := hplaced
    dsimp only at hs
    rw [ha.ref] at hs
    cases hs
    exact h.truncate hpc ha
  | iupdat k dev ino =>
    obtain ⟨x, ha, -⟩ := hplaced
    dsimp only at hs
    rw [ha.ref] at hs
    cases hs
    refine (h.iupdatCopy x dev ino).goto (.inl rfl) nofun (fun j hj => ?_)
      ⟨x, ⟨ha.ref, ha.one, ha.ilock, ha.locked, ha.updating⟩⟩
    cases hj
    exact ⟨hpriv k rfl, fun m hm => (hmref k rfl m hm).symm⟩
  | iupdatWrite k =>
    obtain ⟨x, ha⟩ := hplaced
    dsimp only at hs
    rw [ha.ref] at hs
    cases hs
    exact h.iputDone ha (hpriv k rfl) (hmref k rfl)
  | super =>
    cases hs
    exact h.goto_free rfl rfl nofun trivial
  | scan n =>
    cases hs
    exact h.scan p _
  | updRead x dev ino =>
    cases hs
    exact (h.iupdatCopy x dev ino).goto (.inr (by change _ = (s.pc p).updating; rw [hpc]; rfl))
      nofun nofun hplaced.1
  | updWrite x =>
    cases hs
    refine h.touch (p := p) (x := x) (c := .scan (x + 1)) hplaced ?_ (fun q j _ hj hjref => ?_)
      (fun y hy => update_of_ne hy ..) rfl rfl (fun _ _ => rfl) (fun j hj => .inr hj) (.inl rfl)
      nofun (.inl rfl) trivial
    · simp only [InodeSys.goto, InodeSys.prele, setInode, update_self]
      exact ⟨trivial, rfl, trivial⟩
    · -- `update` is at the slot, so nobody is alone with it
      have hupd := (h.alone_of_holder hj hjref).updating p
      rw [hpc] at hupd
      exact hupd rfl

/-- Every step keeps the table. -/
theorem Inv.step [Fintype π] {a : InodeAct π κ} (h : s.Inv M) (hok : s.Ok a)
    (hs : s.step M a = some s') : s'.Inv M := by
  cases a with
  | iget p k dev ino =>
    -- the guards of the call are the hypotheses of its lemma
    obtain ⟨⟨-, hk, hset, hino⟩, hs⟩ := Option.ite_none_right_eq_some.mp hs
    exact h.iget hk (fun q _ => hset q) hino .refl hok hs
  | iput p k =>
    obtain ⟨⟨hp, hset, hused, hmref⟩, hs⟩ := Option.ite_none_right_eq_some.mp hs
    obtain ⟨x, hip, rfl⟩ := Option.map_eq_some_iff.mp hs
    refine h.iput hip (fun q hq => ⟨hset q, ?_, ?_⟩) hmref fun hcount q => ?_
    · -- no other process holds the lock of this reference
      by_contra hlock
      exact hused ⟨q, hq, .inl (by simpa using hlock)⟩
    · exact fun hwait => hused ⟨q, hq, .inr hwait⟩
    · by_cases hq : q = p
      · rw [hq, hp]
        nofun
      · exact hok x hip hcount q hq
  | plock p k =>
    obtain ⟨⟨-, hset⟩, hs⟩ := Option.ite_none_right_eq_some.mp hs
    obtain ⟨x, hip, rfl⟩ := Option.map_eq_some_iff.mp hs
    exact h.plock hip hset
  | prele p k =>
    obtain ⟨⟨hp, -, hset⟩, hs⟩ := Option.ite_none_right_eq_some.mp hs
    obtain ⟨x, hip, rfl⟩ := Option.map_eq_some_iff.mp hs
    exact h.prele hp hip hset
  | update p =>
    obtain ⟨hp, hs⟩ := Option.ite_none_right_eq_some.mp hs
    split at hs
    · cases hs
      exact h
    · cases hs
      -- the lock of `update` is no part of the table
      have hlock : ({ s with updlock := true } : InodeSys π κ).Inv M :=
        h.quiet (fun _ => ⟨rfl, rfl, rfl, rfl, rfl, rfl⟩) rfl rfl rfl
      exact hlock.goto_free rfl rfl nofun trivial
  | share p k k' =>
    obtain ⟨⟨hp, hset, hset', hk'⟩, hs⟩ := Option.ite_none_right_eq_some.mp hs
    obtain ⟨x, hip, rfl⟩ := Option.map_eq_some_iff.mp hs
    exact h.share hp hip hset hset' hk' (hok x hip)
  | modify p k d iupd iacc =>
    obtain ⟨⟨hp, hset⟩, hs⟩ := Option.ite_none_right_eq_some.mp hs
    obtain ⟨x, hip, rfl⟩ := Option.map_eq_some_iff.mp hs
    exact h.modify hp hip hset d iupd iacc
  | run p error => exact h.run hok hs
  | abandon p =>
    simp only [InodeSys.step] at hs
    split at hs
    · cases hs
      exact h.goto_free rfl rfl nofun trivial
    · cases hs

/-- In every run the table is in order. -/
theorem inv_of_reachable [Fintype π] {s₀ : InodeSys π κ} (h₀ : s₀.Booted M)
    (h : Reachable (step M) Ok s₀ s) : s.Inv M :=
  h.invariant h₀.inv fun _ _ _ hinv hok hs => hinv.step hok hs

/-! ## The start -/

/-- An empty inode table. -/
def boot (disk : ℤ → ℤ → Dinode) : InodeSys π κ where
  inode _ := {}
  dinode := disk
  ref _ := none
  locked _ _ := false
  updlock := false
  pc _ := .idle

omit [DecidableEq π] [DecidableEq κ] in
/-- A table without mounts is one that the system can start with. -/
theorem booted_boot (disk : ℤ → ℤ → Dinode) (hM : ∀ m, M.m_inodp m = none) :
    (boot disk : InodeSys π κ).Booted M := by
  have hrefs : ∀ x, (boot disk : InodeSys π κ).refs x = 0 := fun x => rowRefs_none x
  refine ⟨fun _ => rfl, fun _ _ => rfl, fun x => ⟨?_, ?_, fun _ => ⟨rfl, rfl, rfl⟩,
    fun hused => absurd (hrefs x) hused, nofun⟩, fun x _ hused => absurd (hrefs x) hused,
    fun m x hm => ?_⟩
  · rw [hrefs]
    rfl
  · rw [hrefs]
    decide
  · rw [hM] at hm
    cases hm

end InodeSys

end UnixV6
