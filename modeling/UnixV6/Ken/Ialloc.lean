import UnixV6.Ken.PathResolve

/-!
# Allocating inodes (`ken/alloc.c`)

`ialloc`, for a call that runs alone on disks that work. The super block has the numbers of up to a
hundred inodes that may be free. When it has none left, the I list is searched for inodes that are
free on the disk and not in core.
-/

open Function

namespace UnixV6

/-- The numbers in a super block, the last one first. -/
abbrev Spare : Type := {l : List ℤ // l.length ≤ 100}

namespace NamiSys

/-- The numbers in the super block of a device change. -/
def setSpare (s : NamiSys) (dev : ℤ) (s_inode : Spare) : NamiSys :=
  { s with device := update s.device dev { s.device dev with s_inode } }

/-- The number of the `k`-th inode of the I list, an `int`. -/
def inumberAt (k : ℕ) : ℤ := (BitVec.ofNat 16 (k + 1)).toInt

/-- The `k`-th inode of the I list is in use, or it is in core. -/
def usedAt (s : NamiSys) (dev : ℤ) (k : ℕ) : Bool :=
  ((s.device dev).disk (BitVec.ofNat 16 (k / 16 + 2))).word (16 * (k % 16)) != 0 ||
    (s.findInode (dev, inumberAt k)).isSome

/-- The search of the I list, which ends when there are a hundred numbers. -/
def search (used : ℕ → Bool) : List ℕ → {l : List ℤ // l.length < 100} → Spare
  | [], l => ⟨l.1, l.2.le⟩
  | k :: ks, l =>
    if used k then search used ks l
    else if h : l.1.length + 1 < 100 then search used ks ⟨inumberAt k :: l.1, h⟩
    else ⟨inumberAt k :: l.1, l.2⟩

/-- The numbers that the search of a device finds. -/
def searched (s : NamiSys) (dev : ℤ) : Spare :=
  search (s.usedAt dev) (List.range (16 * (s.device dev).fp.s_isize.toInt.toNat))
    ⟨[], Nat.zero_lt_succ 99⟩

/-- From `loop` on. -/
def iallocLoop (fuel : ℕ) (dev : ℤ) : ℕ → NamiSys → Option (Option InodePtr × NamiSys)
  | 0, _ => none
  | turns + 1, s =>
    match (s.device dev).s_inode with
    | ⟨ino :: l, h⟩ =>
      (iget fuel (s.setSpare dev ⟨l, Nat.le_of_succ_le h⟩) (dev, ino)).bind fun r =>
        match r.1 with
        | none => some r
        | some ip =>
          let i := r.2.inode ip
          if i.i_mode = 0 then some (some ip, r.2.setInode ip { i with toDinode := {} })
          -- inode was allocated after all
          else iallocLoop fuel dev turns (r.2.iput ip)
    | ⟨[], _⟩ =>
      let s := s.setSpare dev (s.searched dev)
      if (s.device dev).s_inode.1 = [] then some (none, { s with u_error := ENOSPC })
      else iallocLoop fuel dev turns s

/-- Allocate an unused I node on the specified device. While the list is locked the call sleeps. -/
def ialloc (fuel turns : ℕ) (s : NamiSys) (dev : ℤ) : Option (Option InodePtr × NamiSys) :=
  if (s.device dev).s_ilock then none else iallocLoop fuel dev turns s

/-! ## Free inodes -/

/-- An inode of the I list of its device. -/
def InIlist (s : NamiSys) (x : ℤ × ℤ) : Prop :=
  1 ≤ x.2 ∧ x.2 ≤ 16 * (s.device x.1).fp.s_isize.toInt

/-- An inode that is free on the disk, and not in core. -/
def Free (s : NamiSys) (x : ℤ × ℤ) : Prop :=
  s.InIlist x ∧ (s.onDisk x).i_mode = 0 ∧ s.findInode x = none

/-- The inodes are in order for `ialloc`: those in core are in use, those that are not have links if
they are in use, and those that are mounted are in use. -/
structure Stocked (s : NamiSys) (fuel : ℕ) (dev : ℤ) : Prop where
  sound : s.Sound fuel
  isize : (s.device dev).fp.s_isize.toInt < 2048
  ilock : (s.device dev).s_ilock = false
  listed : ∀ n ∈ (s.device dev).s_inode.1, s.InIlist (dev, n)
  live : ∀ p, (s.inode p).i_count ≠ 0 → (s.inode p).i_mode ≠ 0
  linked : ∀ x, s.InIlist x → s.findInode x = none → (s.onDisk x).i_mode ≠ 0 →
    0 < (s.onDisk x).i_nlink.toInt
  crossed : ∀ x y, x.2 ≠ 0 → s.cross fuel x = some y → y ≠ x →
    s.InIlist y ∧ (s.current y).i_mode ≠ 0

/-- The inode `x` has been allocated in the slot `p`. -/
structure Allocated (s s' : NamiSys) (p : InodePtr) (x : ℤ × ℤ) : Prop where
  same : ∃ l, Same (s.setSpare x.1 l) s' ∧ ∀ n ∈ l.1, s.InIlist (x.1, n)
  others : Others (· = p) s s'
  free : s.Free x
  slot : (s.inode p).i_count = 0
  inode : s'.inode p = { ilock := true, i_count := 1, i_dev := x.1, i_number := x.2 }
  u_error : s'.u_error = s.u_error

variable {s s' s₀ : NamiSys} {dev : ℤ} {fuel turns : ℕ} {x y : ℤ × ℤ} {p : InodePtr} {l : Spare}

theorem InIlist.ne_zero (h : s.InIlist x) : x.2 ≠ 0 := by
  have hlow := h.1
  omega

/-! ## The search -/

theorem inumberAt_eq {k : ℕ} (hk : k < 32767) : inumberAt k = k + 1 := by
  unfold inumberAt
  rw [BitVec.toInt_eq_toNat_of_lt]
  · rw [BitVec.toNat_ofNat, Nat.mod_eq_of_lt (by omega)]
    push_cast
    rfl
  · rw [BitVec.toNat_ofNat, Nat.mod_eq_of_lt (by omega)]
    omega

/-- The place where the search looks is the one where `iget` reads. -/
theorem usedAt_eq {k : ℕ} (hk : k < 32767) : s.usedAt dev k = true ↔
    (s.onDisk (dev, inumberAt k)).i_mode ≠ 0 ∨ s.findInode (dev, inumberAt k) ≠ none := by
  have hblock : inodeBlock (inumberAt k) = BitVec.ofNat 16 (k / 16 + 2) := by
    unfold inodeBlock
    rw [inumberAt_eq hk]
    have hdiv : ((k : ℤ) + 1 + 31).tdiv 16 = ((k / 16 + 2 : ℕ) : ℤ) := by
      rw [Int.tdiv_eq_ediv_of_nonneg (by omega)]
      omega
    rw [hdiv, BitVec.ofInt_natCast]
  have hword : inodeWord (inumberAt k) = 16 * (k % 16) := by
    unfold inodeWord
    rw [inumberAt_eq hk]
    have hmod : ((k : ℤ) + 1 + 31).tmod 16 = ((k % 16 : ℕ) : ℤ) := by
      rw [Int.tmod_eq_emod_of_nonneg (by omega)]
      omega
    rw [hmod, Int.toNat_natCast]
  unfold usedAt onDisk Dinode.ofWords
  dsimp only
  rw [hblock, hword, add_zero, Bool.or_eq_true, bne_iff_ne, Option.isSome_iff_ne_none]

/-- What the search finds: numbers of unused inodes, some if there are any. -/
theorem mem_search {used : ℕ → Bool} (ks : List ℕ) (l : {l : List ℤ // l.length < 100}) {n : ℤ}
    (hn : n ∈ (search used ks l).1) : n ∈ l.1 ∨ ∃ k ∈ ks, used k = false ∧ n = inumberAt k := by
  induction ks generalizing l with
  | nil => exact .inl hn
  | cons k ks ih =>
    unfold search at hn
    cases hused : used k with
    | true =>
      rw [if_pos hused] at hn
      refine (ih l hn).imp_right fun ⟨j, hj, hfree⟩ => ⟨j, List.mem_cons_of_mem k hj, hfree⟩
    | false =>
      rw [if_neg (by rw [hused]; exact Bool.false_ne_true)] at hn
      have hhead : n ∈ inumberAt k :: l.1 →
          n ∈ l.1 ∨ ∃ j ∈ k :: ks, used j = false ∧ n = inumberAt j := by
        intro hmem
        rcases List.mem_cons.mp hmem with rfl | hmem
        · exact .inr ⟨k, List.mem_cons_self, hused, rfl⟩
        · exact .inl hmem
      split at hn
      · rcases ih _ hn with hmem | ⟨j, hj, hfree⟩
        · exact hhead hmem
        · exact .inr ⟨j, List.mem_cons_of_mem k hj, hfree⟩
      · exact hhead hn

/-- The search comes back without numbers only if it starts with none and all are in use. -/
theorem search_ne_nil {used : ℕ → Bool} (ks : List ℕ) (l : {l : List ℤ // l.length < 100})
    (h : l.1 ≠ [] ∨ ∃ k ∈ ks, used k = false) : (search used ks l).1 ≠ [] := by
  induction ks generalizing l with
  | nil => exact h.resolve_right fun ⟨k, hk, _⟩ => by cases hk
  | cons k ks ih =>
    unfold search
    cases hused : used k with
    | true =>
      rw [if_pos rfl]
      refine ih l (h.imp_right fun ⟨j, hj, hfree⟩ => ⟨j, ?_, hfree⟩)
      refine (List.mem_cons.mp hj).resolve_left fun hjk => ?_
      rw [hjk, hused] at hfree
      cases hfree
    | false =>
      rw [if_neg Bool.false_ne_true]
      split
      · exact ih _ (.inl (List.cons_ne_nil _ _))
      · exact List.cons_ne_nil _ _

/-- The numbers in the I list are those that the search goes through. -/
theorem inIlist_iff (hisize : (s.device dev).fp.s_isize.toInt < 2048) {n : ℤ} :
    s.InIlist (dev, n) ↔
      ∃ k < 16 * (s.device dev).fp.s_isize.toInt.toNat, n = inumberAt k := by
  unfold InIlist
  dsimp only
  constructor
  · rintro ⟨hlow, hhigh⟩
    refine ⟨(n - 1).toNat, by omega, ?_⟩
    rw [inumberAt_eq (by omega)]
    omega
  · rintro ⟨k, hk, rfl⟩
    rw [inumberAt_eq (by omega)]
    omega

/-- The numbers that the search finds are free. -/
theorem mem_searched (hisize : (s.device dev).fp.s_isize.toInt < 2048) {n : ℤ}
    (hn : n ∈ (s.searched dev).1) : s.Free (dev, n) := by
  rcases mem_search _ _ hn with hmem | ⟨k, hk, hused, rfl⟩
  · cases hmem
  · rw [List.mem_range] at hk
    have hfree : ¬ s.usedAt dev k = true := by
      rw [hused]
      exact Bool.false_ne_true
    rw [usedAt_eq (by omega), not_or, not_not, not_not] at hfree
    exact ⟨(inIlist_iff hisize).mpr ⟨k, hk, rfl⟩, hfree⟩

/-- The search finds nothing only if nothing is free. -/
theorem searched_eq_nil (hisize : (s.device dev).fp.s_isize.toInt < 2048)
    (hnil : (s.searched dev).1 = []) (n : ℤ) : ¬ s.Free (dev, n) := by
  rintro ⟨hlist, hmode, hfind⟩
  obtain ⟨k, hk, rfl⟩ := (inIlist_iff hisize).mp hlist
  refine search_ne_nil _ _ (.inr ⟨k, List.mem_range.mpr hk, ?_⟩) hnil
  rw [← Bool.not_eq_true, usedAt_eq (by omega)]
  rintro (hused | hcore)
  · exact hused hmode
  · exact hcore hfind

/-! ## What does not depend on the numbers in the super block -/

/-- The cached numbers are those of one device. -/
theorem device_setSpare (s : NamiSys) (dev : ℤ) (l : Spare) : (s.setSpare dev l).device =
    update s.device dev { s.device dev with s_inode := l } := rfl

/-- The cached numbers are not on the disk. -/
@[simp]
theorem disk_setSpare (s : NamiSys) (dev d : ℤ) (l : Spare) :
    ((s.setSpare dev l).device d).disk = (s.device d).disk := by
  rw [device_setSpare]
  rcases eq_or_ne d dev with rfl | hne
  · rw [update_self]
  · rw [update_of_ne hne]

/-- The cached numbers are not those of the free list. -/
@[simp]
theorem fp_setSpare (s : NamiSys) (dev d : ℤ) (l : Spare) :
    ((s.setSpare dev l).device d).fp = (s.device d).fp := by
  rw [device_setSpare]
  rcases eq_or_ne d dev with rfl | hne
  · rw [update_self]
  · rw [update_of_ne hne]

/-- The cached numbers are replaced. -/
theorem setSpare_setSpare (s : NamiSys) (dev : ℤ) (l l' : Spare) :
    (s.setSpare dev l).setSpare dev l' = s.setSpare dev l' := by
  unfold setSpare
  simp only [update_self, update_idem]

/-- The numbers that have been cached. -/
theorem s_inode_setSpare (s : NamiSys) (dev : ℤ) (l : Spare) :
    ((s.setSpare dev l).device dev).s_inode = l := by
  rw [device_setSpare, update_self]

/-- The lock of the I list stays. -/
theorem s_ilock_setSpare (s : NamiSys) (dev : ℤ) (l : Spare) :
    ((s.setSpare dev l).device dev).s_ilock = (s.device dev).s_ilock := by
  rw [device_setSpare, update_self]

/-- The I list stays. -/
@[simp]
theorem inIlist_setSpare (s : NamiSys) (dev : ℤ) (l : Spare) (x : ℤ × ℤ) :
    (s.setSpare dev l).InIlist x ↔ s.InIlist x := by
  unfold InIlist
  rw [fp_setSpare]

/-- The inodes on the disk stay. -/
@[simp]
theorem onDisk_setSpare (s : NamiSys) (dev : ℤ) (l : Spare) (x : ℤ × ℤ) :
    (s.setSpare dev l).onDisk x = s.onDisk x := by
  unfold onDisk
  rw [disk_setSpare]

/-- The inodes in core stay. -/
@[simp]
theorem findInode_setSpare (s : NamiSys) (dev : ℤ) (l : Spare) (x : ℤ × ℤ) :
    (s.setSpare dev l).findInode x = s.findInode x := rfl

/-- The mounts stay. -/
@[simp]
theorem cross_setSpare (s : NamiSys) (dev : ℤ) (l : Spare) (n : ℕ) (x : ℤ × ℤ) :
    (s.setSpare dev l).cross n x = s.cross n x := by
  induction n generalizing x with
  | zero => rfl
  | succ n ih =>
    unfold cross
    simp only [ih]
    rfl

/-- What an inode is does not depend on the cached numbers. -/
theorem current_setSpare (s : NamiSys) (dev : ℤ) (l : Spare) (x : ℤ × ℤ) :
    (s.setSpare dev l).current x = s.current x := by
  unfold current
  rw [onDisk_setSpare]
  rfl

/-- Cached numbers have to lie in the I list. -/
theorem Stocked.setSpare (h : Stocked s fuel dev) (hl : ∀ n ∈ l.1, s.InIlist (dev, n)) :
    Stocked (s.setSpare dev l) fuel dev where
  sound := ⟨h.sound.free, h.sound.unlocked, fun x hx => by
    rw [cross_setSpare]
    exact h.sound.mounts x hx⟩
  isize := by
    rw [fp_setSpare]
    exact h.isize
  ilock := by
    rw [s_ilock_setSpare]
    exact h.ilock
  listed n hn := by
    rw [s_inode_setSpare] at hn
    exact (inIlist_setSpare s dev l _).mpr (hl n hn)
  live := h.live
  linked x := by
    rw [inIlist_setSpare, findInode_setSpare, onDisk_setSpare]
    exact h.linked x
  crossed x y := by
    rw [cross_setSpare, inIlist_setSpare, current_setSpare]
    exact h.crossed x y

/-! ## What does not change when everything is restored -/

theorem Restored.onDisk (h : Restored s₀ s) (x : ℤ × ℤ) : s.onDisk x = s₀.onDisk x := by
  unfold NamiSys.onDisk
  rw [h.same.device]

theorem Restored.inIlist (h : Restored s₀ s) (x : ℤ × ℤ) : s.InIlist x ↔ s₀.InIlist x := by
  unfold InIlist
  rw [h.same.device]

/-- A slot in use is one that was in use, as it was. -/
theorem Restored.inode (h : Restored s₀ s) (hp : (s.inode p).i_count ≠ 0) :
    s.inode p = s₀.inode p ∧ (s₀.inode p).i_count ≠ 0 := by
  have hne : (s₀.inode p).i_count ≠ 0 := fun hzero => hp (h.others.free p not_false hzero).1
  exact ⟨h.others.used p not_false hne, hne⟩

/-- A call that changes nothing leaves every inode what it is. -/
theorem Restored.current (h : Restored s₀ s) (h₀ : s₀.Sound fuel) (hx : x.2 ≠ 0) :
    s.current x = s₀.current x := by
  unfold NamiSys.current
  rw [h.findInode h₀ hx, h.onDisk]
  cases hfind : s₀.findInode x with
  | none => rfl
  | some p => simp only [Option.elim_some, h.others.used p not_false (h₀.used hx hfind)]

theorem Restored.free (h : Restored s₀ s) (h₀ : s₀.Sound fuel) : s.Free x ↔ s₀.Free x := by
  unfold Free
  rw [h.inIlist, h.onDisk]
  refine and_congr_right fun hlist => and_congr_right fun _ => ?_
  rw [h.findInode h₀ hlist.ne_zero]

theorem Restored.sound (h : Restored s₀ s) (h₀ : s₀.Sound fuel) : s.Sound fuel where
  free p hp := (h.others.free p not_false (h.slot p hp)).2
  unlocked p hp := by
    obtain ⟨heq, hne⟩ := h.inode hp
    rw [heq]
    exact h₀.unlocked p hne
  mounts x hx := by
    rw [h.cross h₀ hx]
    exact h₀.mounts x hx

/-- A call that changes nothing leaves the device stocked. -/
theorem Restored.stocked (h : Restored s₀ s) (h₀ : Stocked s₀ fuel dev) : Stocked s fuel dev where
  sound := h.sound h₀.sound
  isize := by
    rw [h.same.device]
    exact h₀.isize
  ilock := by
    rw [h.same.device]
    exact h₀.ilock
  listed n hn := by
    rw [h.same.device] at hn
    exact (h.inIlist _).mpr (h₀.listed n hn)
  live p hp := by
    obtain ⟨heq, hne⟩ := h.inode hp
    rw [heq]
    exact h₀.live p hne
  linked x hlist hfind := by
    have hlist₀ := (h.inIlist x).mp hlist
    rw [h.findInode h₀.sound hlist₀.ne_zero] at hfind
    rw [h.onDisk]
    exact h₀.linked x hlist₀ hfind
  crossed x y hx hcross hne := by
    rw [h.cross h₀.sound hx] at hcross
    obtain ⟨hlist, hmode⟩ := h₀.crossed x y hx hcross hne
    rw [h.inIlist, h.current h₀.sound hlist.ne_zero]
    exact ⟨hlist, hmode⟩

theorem Same.trans {s₁ : NamiSys} (h : Same s₀ s₁) (h' : Same s₁ s) : Same s₀ s :=
  ⟨h'.device.trans h.device, h'.m_inodp.trans h.m_inodp, h'.m_dev.trans h.m_dev,
    h'.u_uid.trans h.u_uid, h'.u_gid.trans h.u_gid⟩

/-- The cached numbers are replaced on both sides. -/
theorem Same.setSpare (h : Same s₀ s) (dev : ℤ) (l : Spare) :
    Same (s₀.setSpare dev l) (s.setSpare dev l) := by
  refine ⟨?_, h.m_inodp, h.m_dev, h.u_uid, h.u_gid⟩
  rw [device_setSpare, device_setSpare, h.device]

/-- What happens after everything was restored has happened at the beginning. -/
theorem Others.after {P : InodePtr → Prop} {s₁ : NamiSys} (h : Others (fun _ => False) s₀ s₁)
    (h' : Others P s₁ s) : Others P s₀ s where
  used q hq hne := by
    have heq := h.used q not_false hne
    rw [h'.used q hq (by rwa [heq]), heq]
  free q hq hzero := h'.free q hq (h.free q not_false hzero).1

/-! ## One number -/

/-- What a call of `ialloc` comes back with. -/
def IallocEnds (s : NamiSys) (dev : ℤ) : Option InodePtr × NamiSys → Prop
  | (some p, s') => ∃ n, Allocated s s' p (dev, n)
  | (none, s') => (∃ l, Restored (s.setSpare dev l) s' ∧ ∀ n ∈ l.1, s.InIlist (dev, n)) ∧
      (s'.u_error = ENOSPC ∧ (∀ n, ¬ s.Free (dev, n)) ∨
        s'.u_error = ENFILE ∧ ∀ p, (s.inode p).i_count ≠ 0)

/-- The turn of the loop with the number `n`. -/
inductive Popped (s : NamiSys) (fuel : ℕ) (dev n : ℤ) (l : Spare) : Prop
  | found (p : InodePtr) (s' : NamiSys) (h : Allocated s s' p (dev, n))
      (hturn : ∀ turns, iallocLoop fuel dev (turns + 1) s = some (some p, s'))
  | overflow (s' : NamiSys) (h : Restored (s.setSpare dev l) s')
      (hfull : ∀ p, (s.inode p).i_count ≠ 0) (herr : s'.u_error = ENFILE)
      (hturn : ∀ turns, iallocLoop fuel dev (turns + 1) s = some (none, s'))
  | again (s' : NamiSys) (h : Restored (s.setSpare dev l) s') (hused : ¬ s.Free (dev, n))
      (herr : s'.u_error = s.u_error)
      (hturn : ∀ turns, iallocLoop fuel dev (turns + 1) s = iallocLoop fuel dev turns s')

/-- A turn of the loop with a cached number. -/
theorem iallocLoop_cons {n : ℤ} {l : List ℤ} {hl : (n :: l).length ≤ 100}
    (hlist : (s.device dev).s_inode = ⟨n :: l, hl⟩) {r : Option InodePtr}
    (higet : iget fuel (s.setSpare dev ⟨l, Nat.le_of_succ_le hl⟩) (dev, n) = some (r, s'))
    (turns : ℕ) : iallocLoop fuel dev (turns + 1) s = r.elim (some (none, s')) fun ip =>
      if (s'.inode ip).i_mode = 0 then
        some (some ip, s'.setInode ip { s'.inode ip with toDinode := {} })
      else iallocLoop fuel dev turns (s'.iput ip) := by
  conv_lhs => unfold iallocLoop
  rw [hlist]
  dsimp only
  rw [higet, Option.bind_some]
  cases r <;> rfl

/-- The next cached number is popped. -/
theorem Stocked.popped (h : Stocked s fuel dev) {n : ℤ} {l : List ℤ} {hl : (n :: l).length ≤ 100}
    (hlist : (s.device dev).s_inode = ⟨n :: l, hl⟩) :
    Popped s fuel dev n ⟨l, Nat.le_of_succ_le hl⟩ := by
  have hmem : ∀ m ∈ n :: l, s.InIlist (dev, m) := fun m hm => h.listed m (by rwa [hlist])
  have hn := hmem n List.mem_cons_self
  have hne : n ≠ 0 := hn.ne_zero
  have hb : Stocked (s.setSpare dev ⟨l, Nat.le_of_succ_le hl⟩) fuel dev :=
    h.setSpare fun m hm => hmem m (List.mem_cons_of_mem n hm)
  obtain ⟨y, hcross⟩ := hb.sound.mounts (dev, n) hne
  obtain ⟨r, s', higet, hr⟩ := (Restored.refl hb.sound).iget hb.sound hne hcross
  have hturn := iallocLoop_cons hlist higet
  rw [cross_setSpare] at hcross
  by_cases hhold : ((s.setSpare dev ⟨l, Nat.le_of_succ_le hl⟩).tree fuel).hold y = 0
  swap
  · -- the inode table is full
    rw [if_neg hhold] at hr
    obtain ⟨rfl, hrestored, herr⟩ := hr
    unfold tree at hhold herr
    dsimp only at hhold herr
    split at hhold
    · next hfull =>
      rw [if_pos hfull] at herr
      exact .overflow s' hrestored hfull.2 herr hturn
    · exact absurd rfl hhold
  rw [if_pos hhold] at hr
  obtain ⟨p, rfl, hholds, herr⟩ := hr
  have hmode : (s'.inode p).i_mode = ((s.setSpare dev _).current y).i_mode :=
    congrArg Dinode.i_mode hholds.current.1
  rw [current_setSpare] at hmode
  by_cases hzero : (s'.inode p).i_mode = 0
  · simp only [Option.elim_some, if_pos hzero] at hturn
    -- what is mounted somewhere is in use
    have hy : y = (dev, n) := by
      by_contra hyne
      exact (h.crossed _ _ hne hcross hyne).2 (hmode.symm.trans hzero)
    subst hy
    rcases hholds.taken with ⟨-, hused, -, hi⟩ | ⟨hfind, hcount, hi⟩
    · rw [hi] at hzero
      exact absurd hzero (h.live p hused)
    · rw [hi, onDisk_setSpare] at hzero
      refine .found p (s'.setInode p { s'.inode p with toDinode := {} })
        ⟨⟨⟨l, Nat.le_of_succ_le hl⟩, hholds.same.setInode p _, fun m hm =>
          hmem m (List.mem_cons_of_mem n hm)⟩, ?_, ⟨hn, hzero, hfind⟩, hcount, ?_, herr⟩ hturn
      · have hothers := hholds.others.write (fun _ => id)
          (rfl : (s'.setInode p { s'.inode p with toDinode := {} }).inode = update s'.inode p _)
        exact ⟨hothers.used, hothers.free⟩
      · simp only [setInode, update_self, hi]
  · simp only [Option.elim_some, if_neg hzero] at hturn
    -- it has been allocated after all
    have hcore : s.findInode y = none → (s.onDisk y).i_mode ≠ 0 := by
      intro hnone hdisk
      apply hzero
      rw [hmode]
      unfold NamiSys.current
      rw [hnone]
      exact hdisk
    have hylist : s.InIlist y := by
      by_cases hy : y = (dev, n)
      · rwa [hy]
      · exact (h.crossed _ _ hne hcross hy).1
    obtain ⟨hrestored, herr'⟩ := hholds.iput hb.sound fun hnone => by
      rw [onDisk_setSpare]
      exact h.linked y hylist hnone (hcore hnone)
    refine .again _ hrestored (fun hfree => ?_) (herr'.trans herr) hturn
    obtain ⟨-, hdisk, hnone⟩ := hfree
    have hy : y = (dev, n) := by
      cases fuel with
      | zero => cases hcross
      | succ k =>
        unfold cross at hcross
        rw [hnone] at hcross
        exact (Option.some.inj hcross).symm
    rw [hy] at hcore
    exact hcore hnone hdisk

/-! ## The loop -/

/-- What is free after everything was restored was free at the beginning. -/
theorem IallocEnds.of_restored {s₁ : NamiSys} (h : Stocked s fuel dev)
    (hl : ∀ n ∈ l.1, s.InIlist (dev, n)) (hrestored : Restored (s.setSpare dev l) s₁)
    (herr : s₁.u_error = s.u_error) {r : Option InodePtr × NamiSys} (hr : IallocEnds s₁ dev r) :
    IallocEnds s dev r := by
  have hsound := (h.setSpare hl).sound
  -- what the discarded inode changed: neither what is used nor what is free
  have hothers : Others (fun _ => False) s s₁ := ⟨hrestored.others.used, hrestored.others.free⟩
  -- so the list and the free inodes are the same before and after
  have hlist : ∀ x, s₁.InIlist x ↔ s.InIlist x := fun x => by
    rw [hrestored.inIlist, inIlist_setSpare]
  have hfree : ∀ x, s₁.Free x ↔ s.Free x := by
    intro x
    rw [hrestored.free hsound]
    unfold Free
    rw [inIlist_setSpare, onDisk_setSpare, findInode_setSpare]
  -- an inode is found, or the list is exhausted
  obtain ⟨r, s'⟩ := r
  cases r with
  | some p =>
    obtain ⟨n, ha⟩ := hr
    obtain ⟨l', hsame, hl'⟩ := ha.same
    refine ⟨n, ⟨⟨l', ?_, fun m hm => (hlist _).mp (hl' m hm)⟩, hothers.after ha.others,
      (hfree _).mp ha.free, hrestored.slot p ha.slot, ha.inode, ha.u_error.trans herr⟩⟩
    have hbase := hrestored.same.setSpare dev l'
    rw [setSpare_setSpare] at hbase
    exact hbase.trans hsame
  | none =>
    obtain ⟨⟨l', hrestored', hl'⟩, hwhy⟩ := hr
    have hbase := hrestored.same.setSpare dev l'
    rw [setSpare_setSpare] at hbase
    refine ⟨⟨l', ⟨hbase.trans hrestored'.same, ?_⟩, fun m hm => (hlist _).mp (hl' m hm)⟩,
      -- why nothing was found carries over
      hwhy.imp (fun ⟨herr', hnone⟩ => ⟨herr', fun n => ?_⟩)
        fun ⟨herr', hfull⟩ => ⟨herr', fun p hp => ?_⟩⟩
    · have hafter := hothers.after ⟨hrestored'.others.used, hrestored'.others.free⟩
      exact ⟨hafter.used, hafter.free⟩
    · rw [← hfree]
      exact hnone n
    · exact hfull p (hrestored.others.free p not_false hp).1

/-- Without a cached number the I list is searched. -/
theorem Stocked.search (h : Stocked s fuel dev) (hlist : (s.device dev).s_inode.1 = [])
    (hturns : 2 ≤ turns) : ∃ r, iallocLoop fuel dev turns s = some r ∧ IallocEnds s dev r := by
  -- what the search of the disk finds is free, and fills the spare list
  have hfound : ∀ n ∈ (s.searched dev).1, s.Free (dev, n) := fun n hn => mem_searched h.isize hn
  have hl : ∀ n ∈ (s.searched dev).1, s.InIlist (dev, n) := fun n hn => (hfound n hn).1
  have hb := h.setSpare hl
  obtain ⟨turns, rfl⟩ : ∃ k, turns = k + 2 := ⟨turns - 2, by omega⟩
  -- one turn of the loop: search, then try what has been found
  have hturn : iallocLoop fuel dev (turns + 2) s =
      if (s.searched dev).1 = [] then
        some (none, { s.setSpare dev (s.searched dev) with u_error := ENOSPC })
      else iallocLoop fuel dev (turns + 1) (s.setSpare dev (s.searched dev)) := by
    have hnil : (s.device dev).s_inode = ⟨[], Nat.zero_le 100⟩ := Subtype.ext hlist
    conv_lhs => unfold iallocLoop
    rw [hnil]
    dsimp only
    rw [s_inode_setSpare]
  rw [hturn]
  have hself := Restored.refl hb.sound
  -- nothing found, or a list to be used up
  cases hcases : (s.searched dev).1 with
  | nil =>
    rw [if_pos rfl]
    refine ⟨_, rfl, ⟨s.searched dev, ?_, hl⟩, .inl ⟨rfl, searched_eq_nil h.isize hcases⟩⟩
    exact ⟨⟨rfl, rfl, rfl, rfl, rfl⟩, ⟨hself.others.used, hself.others.free⟩⟩
  | cons n l =>
    rw [if_neg (List.cons_ne_nil n l)]
    have hlen : (n :: l).length ≤ 100 := hcases ▸ (s.searched dev).2
    have hspare : ((s.setSpare dev (s.searched dev)).device dev).s_inode = ⟨n :: l, hlen⟩ := by
      rw [s_inode_setSpare]
      exact Subtype.ext hcases
    have htail : ∀ m ∈ l, (s.setSpare dev (s.searched dev)).InIlist (dev, m) := fun m hm => by
      rw [inIlist_setSpare]
      exact hl m (hcases ▸ List.mem_cons_of_mem n hm)
    -- the first inode of the list: allocated, no slot for it, or not free after all
    rcases hb.popped hspare with ⟨p, s', ha, hpop⟩ | ⟨s', hr, hfull, herr, hpop⟩ |
      ⟨s', -, hused, -, -⟩
    · exact ⟨_, hpop turns, IallocEnds.of_restored h hl hself rfl ⟨n, ha⟩⟩
    · exact ⟨_, hpop turns, IallocEnds.of_restored h hl hself rfl
        ⟨⟨_, hr, htail⟩, .inr ⟨herr, hfull⟩⟩⟩
    · -- what has been found is free
      have hfree := hfound n (hcases ▸ List.mem_cons_self)
      refine absurd ?_ hused
      unfold Free
      rw [inIlist_setSpare, onDisk_setSpare]
      exact hfree

/-- The numbers in the super block are tried one after the other, before the I list is searched. -/
theorem Stocked.iallocLoop (m : ℕ) (h : Stocked s fuel dev)
    (hlength : (s.device dev).s_inode.1.length = m) (hturns : m + 2 ≤ turns) :
    ∃ r, iallocLoop fuel dev turns s = some r ∧ IallocEnds s dev r := by
  induction m generalizing s turns with
  | zero => exact h.search (List.length_eq_zero_iff.mp hlength) hturns
  | succ m ih =>
    obtain ⟨turns, rfl⟩ : ∃ k, turns = k + 1 := ⟨turns - 1, by omega⟩
    generalize hspare : (s.device dev).s_inode = spare at hlength
    obtain ⟨_ | ⟨n, l⟩, hl⟩ := spare
    · cases hlength
    have htail : ∀ k ∈ l, s.InIlist (dev, k) := fun k hk =>
      h.listed k (by rw [hspare]; exact List.mem_cons_of_mem n hk)
    rcases h.popped hspare with ⟨p, s', ha, hpop⟩ | ⟨s', hr, hfull, herr, hpop⟩ |
      ⟨s', hr, -, herr, hpop⟩
    · exact ⟨_, hpop turns, n, ha⟩
    · exact ⟨_, hpop turns, ⟨_, hr, htail⟩, .inr ⟨herr, hfull⟩⟩
    · have hlength' : (s'.device dev).s_inode.1.length = m := by
        rw [hr.same.device, s_inode_setSpare]
        exact Nat.succ.inj hlength
      obtain ⟨r, hrun, hends⟩ := ih (hr.stocked (h.setSpare htail)) hlength'
        (Nat.le_of_succ_le_succ hturns)
      exact ⟨r, (hpop turns).trans hrun, hends.of_restored h htail hr herr⟩

/-- `ialloc` always comes back. It hands out an inode that is free on the disk and not in core, with
all its fields cleared, if there is one and a slot for it; else it says why not. -/
theorem ialloc_hands_out (h : Stocked s fuel dev) (hturns : 102 ≤ turns) :
    ∃ r, s.ialloc fuel turns dev = some r ∧ IallocEnds s dev r ∧
      (r.1.isSome ↔ (∃ n, s.Free (dev, n)) ∧ ∃ p, (s.inode p).i_count = 0) := by
  have hlength : (s.device dev).s_inode.1.length + 2 ≤ turns :=
    Nat.le_trans (Nat.add_le_add_right (s.device dev).s_inode.2 2) hturns
  obtain ⟨⟨r, s'⟩, hrun, hends⟩ := h.iallocLoop _ rfl hlength
  refine ⟨(r, s'), ?_, hends, ?_⟩
  · unfold ialloc
    rw [if_neg (by rw [h.ilock]; exact Bool.false_ne_true)]
    exact hrun
  · cases r with
    | some p =>
      obtain ⟨n, ha⟩ := hends
      exact ⟨fun _ => ⟨⟨n, ha.free⟩, p, ha.slot⟩, fun _ => rfl⟩
    | none =>
      refine ⟨fun hsome => (Bool.false_ne_true hsome).elim, fun ⟨⟨n, hfree⟩, p, hp⟩ => ?_⟩
      rcases hends.2 with ⟨-, hnone⟩ | ⟨-, hfull⟩
      · exact absurd hfree (hnone n)
      · exact absurd hp (hfull p)

/-- Every inode on the disk of the witness is free or has links. -/
theorem oneFile_onDisk (d : ℤ) : ∀ k < 160, (oneFile.onDisk (d, (k + 1 : ℕ))).i_mode = 0 ∨
    0 < (oneFile.onDisk (d, (k + 1 : ℕ))).i_nlink.toInt := by
  have hdev : ∀ n, oneFile.onDisk (d, n) = oneFile.onDisk (0, n) := fun _ => rfl
  simp only [hdev]
  decide +kernel

/-- The one file leaves a free inode and a free slot. -/
theorem ialloc_hands_out_oneFile : ∃ r, oneFile.ialloc 1 102 0 = some r ∧
    IallocEnds oneFile 0 r ∧
      (r.1.isSome ↔ (∃ n, oneFile.Free (0, n)) ∧ ∃ p, (oneFile.inode p).i_count = 0) := by
  have hisize : ∀ d, (oneFile.device d).fp.s_isize.toInt = 10 := fun _ => rfl
  refine ialloc_hands_out ⟨oneFile_sound, by decide, rfl, fun n hn => ?_, by decide,
    fun x hlist _ hmode => ?_, fun x y _ hcross hne => ?_⟩ le_rfl
  · cases hn
  · obtain ⟨hlow, hhigh⟩ := hlist
    rw [hisize] at hhigh
    have hlt : (x.2 - 1).toNat < 160 := by omega
    have hnumber : ((((x.2 - 1).toNat + 1 : ℕ) : ℤ)) = x.2 := by omega
    have hlinks := oneFile_onDisk x.1 (x.2 - 1).toNat hlt
    rw [hnumber] at hlinks
    exact hlinks.resolve_left hmode
  · -- nothing is mounted
    have hself := cross_of_unmounted oneFile_unmounted 0 x
    exact absurd (Option.some.inj (hcross.symm.trans hself)) hne

end NamiSys

end UnixV6
