import UnixV6.Ken.Path

/-!
# What `namei` leaves behind

Between two components `namei` has one inode locked, with one reference more than before;
everything else in the table is as it was at the beginning. `Restored` is the state without that
inode and `Holds` the state with it: `iget` leads from the first to the second and `iput` back.
-/

open Function

namespace UnixV6

namespace NamiSys

variable {s₀ s s' : NamiSys} {p q : InodePtr} {x y : ℤ × ℤ} {fuel : ℕ} {iupd : Bool}

/-- What a walk does not change at all. -/
structure Same (s₀ s : NamiSys) : Prop where
  device : s.device = s₀.device
  m_inodp : s.m_inodp = s₀.m_inodp
  m_dev : s.m_dev = s₀.m_dev
  u_uid : s.u_uid = s₀.u_uid
  u_gid : s.u_gid = s₀.u_gid

/-- The other slots than those of `P` are as they were, as far as they are in use. -/
structure Others (P : InodePtr → Prop) (s₀ s : NamiSys) : Prop where
  used : ∀ q, ¬ P q → (s₀.inode q).i_count ≠ 0 → s.inode q = s₀.inode q
  free : ∀ q, ¬ P q → (s₀.inode q).i_count = 0 →
    (s.inode q).i_count = 0 ∧ (s.inode q).i_number = 0

/-- Everything is as at the beginning. -/
structure Restored (s₀ s : NamiSys) : Prop where
  same : Same s₀ s
  others : Others (fun _ => False) s₀ s

/-- The slot of an inode with one reference more, and locked. -/
def Taken (s₀ : NamiSys) (p : InodePtr) (x : ℤ × ℤ) (iupd : Bool) (i : Inode) : Prop :=
  s₀.findInode x = some p ∧ (s₀.inode p).i_count ≠ 0 ∧ (s₀.inode p).imount = false ∧
      i = { s₀.inode p with
        i_count := (s₀.inode p).i_count + 1
        ilock := true
        iupd := (s₀.inode p).iupd || iupd } ∨
    s₀.findInode x = none ∧ (s₀.inode p).i_count = 0 ∧
      i = { toDinode := s₀.onDisk x
            ilock := true
            iupd := iupd
            i_count := 1
            i_dev := x.1
            i_number := x.2 }

/-- The inode `x` is held in the slot `p`, and everything else is as at the beginning. -/
structure Holds (s₀ s : NamiSys) (p : InodePtr) (x : ℤ × ℤ) (iupd : Bool) : Prop where
  same : Same s₀ s
  others : Others (· = p) s₀ s
  taken : Taken s₀ p x iupd (s.inode p)

/-- The tables as a call finds them that runs alone: nothing is locked, and what is mounted can be
found. -/
structure Sound (s : NamiSys) (fuel : ℕ) : Prop where
  free : ∀ p, (s.inode p).i_count = 0 → (s.inode p).i_number = 0
  unlocked : ∀ p, (s.inode p).i_count ≠ 0 → (s.inode p).ilock = false ∧ (s.inode p).iwant = false
  mounts : ∀ x, x.2 ≠ 0 → ∃ y, s.cross fuel x = some y

/-- What there is below `x₀`: directories have no holes and end below offset 32768, and what is not
in core has links. -/
structure Walkable (s : NamiSys) (fuel : ℕ) (x₀ : ℤ × ℤ) : Prop where
  dirs : ∀ x, (s.tree fuel).Leads x₀ x → (s.current x).i_mode &&& IFMT = IFDIR →
    (s.file (s.current x)).IsDir ∧ (s.file (s.current x)).entries < 2048
  links : ∀ x, (s.tree fuel).Leads x₀ x → s.findInode x = none → 0 < (s.onDisk x).i_nlink.toInt

/-- What `namei` returns and leaves behind for the answer of the tree. -/
def Answers (s₀ : NamiSys) : Resolved (ℤ × ℤ) → Option InodePtr × NamiSys → Prop
  | .found x, (r, s) => ∃ p, r = some p ∧ Holds s₀ s p x false ∧ s.u_error = 0
  | .create x c, (r, s) => r = none ∧ ∃ p iupd, s.u_pdir = some p ∧ Holds s₀ s p x iupd ∧
      s.u_error = 0 ∧ s.u_dbuf = c ∧
      s.u_offset = BitVec.ofNat 16 (16 * (s₀.file (s₀.current x)).slots.firstFree)
  | .delete x c, (r, s) => ∃ p m, r = some p ∧ Holds s₀ s p x false ∧ s.u_error = 0 ∧
      s.u_dbuf = c ∧ (s₀.file (s₀.current x)).firstMatch c = some m ∧
      s.u_dent = (s₀.file (s₀.current x)).dent m ∧ s.u_offset = BitVec.ofNat 16 (16 * (m + 1))
  | .error u_error, (r, s) => r = none ∧ Restored s₀ s ∧ s.u_error = u_error

/-! ## Finding slots -/

theorem findInode_eq_some (h : s.findInode x = some p) :
    (s.inode p).i_dev = x.1 ∧ (s.inode p).i_number = x.2 := by
  have hp := List.find?_some h
  simpa using hp

/-- A slot that is found is in use. -/
theorem Sound.used (h : s.Sound fuel) (hx : x.2 ≠ 0) (hp : s.findInode x = some p) :
    (s.inode p).i_count ≠ 0 := by
  intro hzero
  have hnumber := (findInode_eq_some hp).2
  rw [h.free p hzero] at hnumber
  exact hx hnumber.symm

theorem Restored.refl (h₀ : s₀.Sound fuel) : Restored s₀ s₀ :=
  ⟨⟨rfl, rfl, rfl, rfl, rfl⟩, ⟨fun _ _ _ => rfl, fun q _ hq => ⟨hq, h₀.free q hq⟩⟩⟩

theorem Restored.slot (h : Restored s₀ s) (p : InodePtr) (hp : (s.inode p).i_count = 0) :
    (s₀.inode p).i_count = 0 := by
  by_contra hne
  rw [h.others.used p not_false hne] at hp
  exact hne hp

/-- The scan finds what it has found at the beginning. -/
theorem Restored.findInode (h : Restored s₀ s) (h₀ : s₀.Sound fuel) (hx : x.2 ≠ 0) :
    s.findInode x = s₀.findInode x := by
  unfold NamiSys.findInode
  congr 1
  funext p
  by_cases hp : (s₀.inode p).i_count = 0
  · -- a free slot has no number
    have hnumber := (h.others.free p not_false hp).2
    have hnumber₀ := h₀.free p hp
    have hno : ((0 : ℤ) == x.2) = false := by simpa using hx.symm
    rw [hnumber, hnumber₀, hno, Bool.and_false, Bool.and_false]
  · rw [h.others.used p not_false hp]

theorem Restored.cross (h : Restored s₀ s) (h₀ : s₀.Sound fuel) {n : ℕ} (hx : x.2 ≠ 0) :
    s.cross n x = s₀.cross n x := by
  induction n generalizing x with
  | zero => rfl
  | succ n ih =>
    unfold NamiSys.cross
    rw [h.findInode h₀ hx]
    cases hfind : s₀.findInode x with
    | none => rfl
    | some p =>
      dsimp only
      rw [h.others.used p not_false (h₀.used hx hfind)]
      have hmount : s.findMount p = s₀.findMount p := by
        unfold findMount
        rw [h.same.m_inodp]
      have hroot : ∀ m, s.cross n (s₀.m_dev m, ROOTINO) = s₀.cross n (s₀.m_dev m, ROOTINO) :=
        fun m => ih one_ne_zero
      rw [hmount, h.same.m_dev]
      simp only [hroot]

/-- Where nothing is mounted, `iget` stays on the device. -/
theorem cross_of_unmounted (himount : ∀ p, (s.inode p).imount = false) (n : ℕ) (x : ℤ × ℤ) :
    s.cross (n + 1) x = some x := by
  unfold NamiSys.cross
  cases s.findInode x with
  | none => rfl
  | some p => exact if_neg (by rw [himount p]; exact Bool.false_ne_true)

/-! ## `iget` -/

theorem Same.setInode (h : Same s₀ s) (p : InodePtr) (i : Inode) : Same s₀ (s.setInode p i) :=
  ⟨h.device, h.m_inodp, h.m_dev, h.u_uid, h.u_gid⟩

theorem Same.putDevice (h : Same s₀ s) {dev : ℤ} {t : IgetSys}
    (hdisk : t.disk = (s.device dev).disk) (hfree : t.free = (s.device dev).free)
    (hfp : t.fp = (s.device dev).fp) (hs_inode : t.s_inode = (s.device dev).s_inode)
    (hs_ilock : t.s_ilock = (s.device dev).s_ilock)
    (hs_ronly : t.s_ronly = (s.device dev).s_ronly) : Same s₀ (s.putDevice dev t) := by
  refine ⟨?_, h.m_inodp, h.m_dev, h.u_uid, h.u_gid⟩
  rw [← h.device]
  unfold NamiSys.putDevice
  dsimp only
  rw [hdisk, hfree, hfp, hs_inode, hs_ilock, hs_ronly]
  exact update_eq_self dev s.device

/-- One slot is written. -/
theorem Others.write {P : InodePtr → Prop} (h : Others P s₀ s) (hP : ∀ q, P q → q = p) {i : Inode}
    (hinode : s'.inode = update s.inode p i) : Others (· = p) s₀ s' := by
  have hother : ∀ q, q ≠ p → s'.inode q = s.inode q ∧ ¬ P q := fun q hq =>
    ⟨by rw [hinode, update_of_ne hq], fun hPq => hq (hP q hPq)⟩
  constructor
  · intro q hq hused
    rw [(hother q hq).1]
    exact h.used q (hother q hq).2 hused
  · intro q hq hfree
    rw [(hother q hq).1]
    exact h.free q (hother q hq).2 hfree

/-- The first free slot is taken for an inode that is not in core. -/
theorem iget_free {t : IgetSys} {dev ino : ℤ} (hfind : t.findInode dev ino = none)
    (hslot : t.findFree = some p) : t.iget .none dev ino = some (some p, t.setInode p
      { t.claimed p dev ino with toDinode := Dinode.ofWords fun k =>
          (t.disk (inodeBlock ino)).word (inodeWord ino + k) }) := by
  unfold IgetSys.iget
  rw [hfind, hslot]
  simp only [DiskErrors.none, IgetSys.geterror, IgetSys.setInode, Option.isSome_none,
    Bool.false_eq_true, if_false, update_self, update_idem]

/-- An inode that is not in core goes to the first free slot, if there is one. -/
theorem Restored.iget_absent (h : Restored s₀ s) (h₀ : s₀.Sound fuel) (hx : x.2 ≠ 0)
    (hfind : s₀.findInode x = none) (n : ℕ) :
    ∃ r s', NamiSys.iget (n + 1) s x = some (r, s') ∧
      if (s₀.tree fuel).hold x = 0 then
        ∃ p, r = some p ∧ Holds s₀ s' p x false ∧ s'.u_error = s.u_error
      else r = none ∧ Restored s₀ s' ∧ s'.u_error = (s₀.tree fuel).hold x := by
  have hfind' : s.findInode x = none := (h.findInode h₀ hx).trans hfind
  have habsent : (s.onDevice x.1).findInode x.1 x.2 = none := hfind'
  unfold NamiSys.iget
  rw [hfind']
  cases hslot : (s.onDevice x.1).findFree with
  | none =>
    have hfull : (s.onDevice x.1).iget .none x.1 x.2 =
        some (none, { s.onDevice x.1 with u_error := ENFILE }) := by
      unfold IgetSys.iget
      rw [habsent, hslot]
    dsimp only
    rw [hfull]
    -- a slot that was free at the beginning is free again
    have hfull₀ : ∀ p, (s₀.inode p).i_count ≠ 0 := by
      intro p hp
      have hall := List.find?_eq_none.mp hslot p (List.mem_finRange p)
      exact hall (by simpa [onDevice] using (h.others.free p not_false hp).1)
    have hhold : (s₀.tree fuel).hold x = ENFILE := if_pos ⟨hfind, hfull₀⟩
    rw [hhold]
    refine ⟨none, _, rfl, ?_⟩
    rw [if_neg (by decide)]
    exact ⟨rfl, ⟨h.same.putDevice rfl rfl rfl rfl rfl rfl, ⟨h.others.used, h.others.free⟩⟩, rfl⟩
  | some p =>
    have hcount : (s.inode p).i_count = 0 := by simpa [onDevice] using List.find?_some hslot
    have hcount₀ := h.slot p hcount
    have hhold : (s₀.tree fuel).hold x = 0 := if_neg fun hfull => hfull.2 p hcount₀
    dsimp only
    rw [iget_free habsent hslot, hhold]
    refine ⟨some p, _, rfl, ?_⟩
    rw [if_pos rfl]
    refine ⟨p, rfl, ⟨h.same.putDevice rfl rfl rfl rfl rfl rfl, h.others.write (fun _ => False.elim)
      rfl, .inr ⟨hfind, hcount₀, ?_⟩⟩, rfl⟩
    have hone : (s.inode p).i_count + 1 = 1 := by rw [hcount]; rfl
    simp only [putDevice, IgetSys.setInode, IgetSys.claimed, update_self, onDevice, hone,
      h.same.device]
    rfl

/-- One reference more to an inode that is in core. -/
theorem Restored.lock (h : Restored s₀ s) (hfind : s₀.findInode x = some p)
    (hused : (s₀.inode p).i_count ≠ 0) (himount : (s₀.inode p).imount = false) :
    Holds s₀ (s.setInode p { s₀.inode p with
      i_count := (s₀.inode p).i_count + 1, ilock := true }) p x false := by
  refine ⟨h.same.setInode p _, h.others.write (fun _ => False.elim) rfl,
    .inl ⟨hfind, hused, himount, ?_⟩⟩
  simp only [setInode, update_self, Bool.or_false]

/-- `iget` between two components. It fails if all slots are in use. -/
theorem Restored.iget (h : Restored s₀ s) (h₀ : s₀.Sound fuel) {n : ℕ} (hx : x.2 ≠ 0)
    (hcross : s₀.cross n x = some y) :
    ∃ r s', NamiSys.iget n s x = some (r, s') ∧
      if (s₀.tree fuel).hold y = 0 then
        ∃ p, r = some p ∧ Holds s₀ s' p y false ∧ s'.u_error = s.u_error
      else r = none ∧ Restored s₀ s' ∧ s'.u_error = (s₀.tree fuel).hold y := by
  induction n generalizing x with
  | zero => cases hcross
  | succ n ih =>
    unfold NamiSys.cross at hcross
    cases hfind : s₀.findInode x with
    | none =>
      rw [hfind] at hcross
      obtain rfl : x = y := Option.some.inj hcross
      exact h.iget_absent h₀ hx hfind n
    | some p =>
      rw [hfind] at hcross
      dsimp only at hcross
      have hused := h₀.used hx hfind
      have hslot := h.others.used p not_false hused
      obtain ⟨hunlocked, -⟩ := h₀.unlocked p hused
      unfold NamiSys.iget
      rw [h.findInode h₀ hx, hfind]
      dsimp only
      rw [hslot, hunlocked, if_neg Bool.false_ne_true]
      split at hcross
      · next himount =>
        -- on to the device that is mounted there
        obtain ⟨m, hm, hcross⟩ := Option.bind_eq_some_iff.mp hcross
        have hmount : s.findMount p = some m := by
          unfold findMount
          rw [h.same.m_inodp]
          exact hm
        rw [if_pos himount, hmount, Option.bind_some, h.same.m_dev]
        exact ih one_ne_zero hcross
      · next himount =>
        obtain rfl : x = y := Option.some.inj hcross
        have hhold : (s₀.tree fuel).hold x = 0 :=
          if_neg fun hfull => Option.some_ne_none p (hfind.symm.trans hfull.1)
        rw [if_neg himount, hhold]
        refine ⟨some p, _, rfl, ?_⟩
        rw [if_pos rfl]
        exact ⟨p, rfl, h.lock hfind hused (by simpa using himount), rfl⟩

/-- The inode that is held is the current one. -/
theorem Holds.current (h : Holds s₀ s p x iupd) :
    (s.inode p).toDinode = (s₀.current x).toDinode ∧ (s.inode p).i_dev = x.1 := by
  unfold NamiSys.current
  rcases h.taken with ⟨hfind, -, -, hi⟩ | ⟨hfind, -, hi⟩
  · rw [hi, hfind]
    exact ⟨rfl, (findInode_eq_some hfind).1⟩
  · rw [hi, hfind]
    exact ⟨rfl, rfl⟩

/-! ## `iput` -/

/-- `iput` of one of several references. -/
theorem iput_shared {t : IgetSys} (E : DiskErrors) (hne : (t.inode p).i_count ≠ 1) :
    t.iput E p = t.setInode p { t.inode p with
      i_count := (t.inode p).i_count + -1#8, ilock := false, iwant := false } := by
  unfold IgetSys.iput
  rw [if_neg hne]

/-- `iput` of the last reference to a file that has links, and has not been changed. -/
theorem iput_clean {t : IgetSys} (E : DiskErrors) (hone : (t.inode p).i_count = 1)
    (hlinks : 0 < (t.inode p).i_nlink.toInt) (hiupd : (t.inode p).iupd = false)
    (hiacc : (t.inode p).iacc = false) :
    t.iput E p = t.setInode p { t.inode p with
      ilock := false, iupd := false, iacc := false, imount := false, iwant := false
      i_number := 0, i_count := 0 } := by
  unfold IgetSys.iput IgetSys.release IgetSys.iupdat
  simp only [hone, hiupd, hiacc, IgetSys.setInode, update_self, update_idem, if_true, Bool.or_self,
    Bool.false_and, Bool.false_eq_true, if_false, if_neg (not_le.mpr hlinks)]
  rfl

/-- `iput` gives the reference and the lock back. -/
theorem Holds.iput (h : Holds s₀ s p x false) (h₀ : s₀.Sound fuel)
    (hlinks : s₀.findInode x = none → 0 < (s₀.onDisk x).i_nlink.toInt) :
    Restored s₀ (s.iput p) ∧ (s.iput p).u_error = s.u_error := by
  -- only the slot of `p` changes
  suffices hput : ∃ i, (s.onDevice (s.inode p).i_dev).iput .none p =
      (s.onDevice (s.inode p).i_dev).setInode p i ∧
      ((s₀.inode p).i_count ≠ 0 → i = s₀.inode p) ∧
      ((s₀.inode p).i_count = 0 → i.i_count = 0 ∧ i.i_number = 0) by
    obtain ⟨i, hput, hused, hfree⟩ := hput
    unfold NamiSys.iput
    dsimp only
    rw [hput]
    have hothers : Others (· = p) s₀ (s.putDevice (s.inode p).i_dev
        ((s.onDevice (s.inode p).i_dev).setInode p i)) := h.others.write (fun _ => id) rfl
    refine ⟨⟨h.same.putDevice rfl rfl rfl rfl rfl rfl, fun q _ hq => ?_, fun q _ hq => ?_⟩, rfl⟩
    · rcases eq_or_ne q p with rfl | hne
      · simpa only [putDevice, IgetSys.setInode, update_self] using hused hq
      · exact hothers.used q hne hq
    · rcases eq_or_ne q p with rfl | hne
      · simpa only [putDevice, IgetSys.setInode, update_self] using hfree hq
      · exact hothers.free q hne hq
  generalize (s.inode p).i_dev = dev
  rcases h.taken with ⟨-, hused, -, hi⟩ | ⟨hfind, hzero, hi⟩
  · obtain ⟨hilock, hiwant⟩ := h₀.unlocked p hused
    have hne : ((s.onDevice dev).inode p).i_count ≠ 1 := by
      show (s.inode p).i_count ≠ 1
      rw [hi]
      exact fun hone => hused (add_eq_right.mp hone)
    refine ⟨_, iput_shared .none hne, fun _ => ?_, fun hzero => absurd hzero hused⟩
    show { s.inode p with
      i_count := (s.inode p).i_count + -1#8, ilock := false, iwant := false } = s₀.inode p
    rw [hi]
    generalize s₀.inode p = i at hilock hiwant
    have hcount : i.i_count + 1 + -1#8 = i.i_count := add_neg_cancel_right _ _
    simp only [hcount, Bool.or_false]
    -- the two flags are the only fields that were written
    cases i
    cases hilock
    cases hiwant
    rfl
  · refine ⟨_, iput_clean .none ?_ ?_ ?_ ?_, fun hused => absurd hzero hused, fun _ => ⟨rfl, rfl⟩⟩
    all_goals simp only [onDevice, hi]
    exact hlinks hfind

end NamiSys

end UnixV6
