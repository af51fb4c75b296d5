import UnixV6.Ken.Ialloc
import UnixV6.Ken.InodeLock

/-!
# `iget` and `iput` of a process by itself

The `iget` and `iput` of `namei` run to their end at once, on the blocks of a disk. In the table
that processes share they stop where they can sleep, and an inode on the disk is a value. The first
are runs of the second in which the other processes are idle: calls one after another lead to the
same slots and the same inodes on the disk. An inode on the disk lies in a block that no file has,
so `itrunc` spares it.
-/

open Function

namespace UnixV6

/-! ## What `itrunc` spares -/

namespace Super

variable {fp : Super} {s s' s'' : FileDev}

/-- Blocks that are no data blocks stay, and the addresses do. -/
structure Spares (fp : Super) (s s' : FileDev) : Prop where
  disk : ∀ b, fp.badblock b = true → s'.disk b = s.disk b
  i_addr : s'.i_addr = s.i_addr

theorem Spares.refl (s : FileDev) : fp.Spares s s := ⟨fun _ _ => rfl, rfl⟩

/-- Nothing that is spared twice has changed. -/
theorem Spares.trans (h : fp.Spares s s') (h' : fp.Spares s' s'') : fp.Spares s s'' :=
  ⟨fun b hb => (h'.disk b hb).trans (h.disk b hb), h'.i_addr.trans h.i_addr⟩

/-- A loop spares what each of its turns spares. -/
theorem spares_foldl {κ : Type*} {f : FileDev → κ → FileDev} (h : ∀ s k, fp.Spares s (f s k))
    (ks : List κ) (s : FileDev) : fp.Spares s (ks.foldl f s) := by
  induction ks generalizing s with
  | nil => exact .refl s
  | cons k ks ih => exact (h s k).trans (ih (f s k))

/-- `free` writes a block of the data area, if any. -/
theorem spares_free (fp : Super) (s : FileDev) (b : BitVec 16) : fp.Spares s (fp.free s b) := by
  unfold free
  split
  · exact .refl s
  · next hgood =>
    refine ⟨fun c hc => ?_, rfl⟩
    dsimp only
    split
    · refine update_of_ne ?_ _ s.disk
      rintro rfl
      exact hgood hc
    · rfl

/-- The blocks of an indirect block are freed. -/
theorem spares_freeWords (fp : Super) (b : BitVec 16) (s : FileDev) :
    fp.Spares s (fp.freeWords b s) := by
  refine spares_foldl (fun s k => ?_) (down 257) s
  split
  · exact spares_free fp s _
  · exact .refl s

/-- An indirect block is freed with all below it. -/
theorem spares_freeIndirect (fp : Super) (i : ℕ) (b : BitVec 16) (s : FileDev) :
    fp.Spares s (fp.freeIndirect i b s) := by
  refine spares_foldl (fun s k => ?_) (down 257) s
  split
  · by_cases h7 : i = 7
    · simp only [if_pos h7]
      exact (spares_freeWords fp _ s).trans (spares_free fp _ _)
    · simp only [if_neg h7]
      exact spares_free fp s _
  · exact .refl s

/-- One place of the inode is cleared. -/
theorem spares_freeAddr (fp : Super) (s : FileDev) (i : ℕ) :
    fp.Spares { s with i_addr := update s.i_addr i 0 } (fp.freeAddr s i) := by
  unfold freeAddr
  split
  · generalize hf : (if s.ilarg then fp.freeIndirect i (s.i_addr i) s else s) = f
    have hbelow : fp.Spares s f := by
      rw [← hf]
      split
      · exact spares_freeIndirect fp i _ s
      · exact .refl s
    have hall := hbelow.trans (spares_free fp f (f.i_addr i))
    exact ⟨hall.disk, congrArg (update · i 0) hall.i_addr⟩
  · next hzero =>
    refine ⟨fun _ _ => rfl, ?_⟩
    rw [← not_not.mp hzero, update_eq_self]

/-- The I list is spared by `itrunc`, and the addresses are cleared. -/
theorem itrunc_spares (fp : Super) (s : FileDev) :
    (∀ b, fp.badblock b = true → (fp.itrunc s).disk b = s.disk b) ∧
      ∀ i < 8, (fp.itrunc s).i_addr i = 0 := by
  have hplaces : ∀ (is : List ℕ) (s : FileDev),
      fp.Spares { s with i_addr := fun i => if i ∈ is then 0 else s.i_addr i }
        (is.foldl fp.freeAddr s) := by
    intro is
    induction is with
    | nil => exact fun s => ⟨fun _ _ => rfl, by simp⟩
    | cons i is ih =>
      intro s
      have hfirst := spares_freeAddr fp s i
      have hrest := ih (fp.freeAddr s i)
      refine ⟨fun b hb => (hrest.disk b hb).trans (hfirst.disk b hb), ?_⟩
      rw [List.foldl_cons, hrest.i_addr, hfirst.i_addr]
      funext j
      rcases eq_or_ne j i with rfl | hji
      · simp
      · simp [hji]
  have hall := hplaces (down 8) s
  unfold itrunc
  dsimp only
  generalize (down 8).foldl fp.freeAddr s = f at hall ⊢
  refine ⟨hall.disk, fun i hi => ?_⟩
  rw [hall.i_addr]
  exact if_pos (Node.mem_down.mpr hi)

end Super

/-! ## The slot of an `iput` -/

/-- The slot of the last reference when `iupdat` looks at it. -/
def InodeSys.ending (i : Inode) : Inode :=
  let i := { i with ilock := true }
  if i.i_nlink.toInt ≤ 0 then truncated i else i

/-- What `iput` leaves of a slot. -/
def InodeSys.given (i : Inode) : Inode :=
  if i.i_count = 1 then
    { ending i with
      ilock := false, iupd := false, iacc := false, imount := false, iwant := false
      i_count := (ending i).i_count + -1#8, i_number := 0 }
  else { i with i_count := i.i_count + -1#8, ilock := false, iwant := false }

namespace IgetSys

open InodeSys (truncated ending given)

/-- What neither `release` nor `iupdat` changes. -/
structure Kept (s s' : IgetSys) : Prop where
  fp : s'.fp = s.fp
  s_ronly : s'.s_ronly = s.s_ronly
  time : s'.time = s.time

/-- The end of a file is recorded in its slot, in blocks and in the free lists. -/
theorem kept_release (s : IgetSys) (p : InodePtr) : Kept s (s.release p) := by
  unfold release itrunc ifree setInode
  dsimp only
  split_ifs <;> exact ⟨rfl, rfl, rfl⟩

/-- The file without links is cut off in its slot, and the blocks outside its file stay. -/
theorem release_alone (s : IgetSys) (p : InodePtr) :
    (s.release p).inode = update s.inode p
        (if (s.inode p).i_nlink.toInt ≤ 0 then truncated (s.inode p) else s.inode p) ∧
      ∀ b, s.fp.badblock b = true → (s.release p).disk b = s.disk b := by
  by_cases hlinks : (s.inode p).i_nlink.toInt ≤ 0
  · rw [if_pos hlinks]
    by_cases hdev : (s.inode p).i_mode &&& IFCHR ≠ 0
    · obtain ⟨hreleased, hdisk, -⟩ := release_device hlinks hdev
      refine ⟨?_, fun b _ => by rw [hdisk]⟩
      rw [truncated, if_pos hdev]
      exact eq_update_iff.mpr ⟨hreleased.slot, hreleased.others⟩
    · obtain ⟨hreleased, hdisk, -⟩ := release_file hlinks hdev rfl
      obtain ⟨hspared, haddr⟩ := s.fp.itrunc_spares (s.file (s.inode p))
      refine ⟨?_, fun b hb => by rw [hdisk]; exact hspared b hb⟩
      rw [truncated, if_neg hdev]
      refine eq_update_iff.mpr ⟨hreleased.slot.trans ?_, hreleased.others⟩
      have hplaces : (fun k : Fin 8 => (s.fp.itrunc (s.file (s.inode p))).i_addr k) = fun _ => 0 :=
        funext fun k => haddr k k.isLt
      rw [hplaces]
  · rw [if_neg hlinks, release_linked (not_le.mp hlinks), update_eq_self]
    exact ⟨rfl, fun _ _ => rfl⟩

/-- `iput` on a disk that works: the slot, and the blocks before those of files. -/
theorem iput_alone (s : IgetSys) (p : InodePtr) :
    (s.iput .none p).inode = update s.inode p (given (s.inode p)) ∧
      Kept s (s.iput .none p) ∧
      ∀ b, s.fp.badblock b = true → (s.iput .none p).disk b =
        if (s.inode p).i_count = 1 ∧
            (((ending (s.inode p)).iupd || (ending (s.inode p)).iacc) && !s.s_ronly) = true ∧
            b = inodeBlock (ending (s.inode p)).i_number then
          s.updated (ending (s.inode p)) (s.disk b)
        else s.disk b := by
  by_cases hone : (s.inode p).i_count = 1
  · generalize hr : (s.setInode p { s.inode p with ilock := true }).release p = r
    have hkept := kept_release (s.setInode p { s.inode p with ilock := true }) p
    obtain ⟨hinode, hdisk⟩ := release_alone (s.setInode p { s.inode p with ilock := true }) p
    rw [hr] at hkept hinode hdisk
    rw [inode_setInode] at hinode
    have hslot : r.inode p = ending (s.inode p) := by
      rw [hinode, update_self]
      rfl
    have hrest : r.inode = update s.inode p (ending (s.inode p)) := by
      rw [hinode]
      exact update_idem ..
    obtain ⟨disk, u_error, heq, -, hwritten⟩ := iupdat_eq .none r p
    unfold iput
    simp only [if_pos hone, hr, heq]
    refine ⟨?_, ⟨hkept.fp, hkept.s_ronly, hkept.time⟩, fun b hb => ?_⟩
    · simp only [setInode, update_self, update_idem, hrest, given, if_pos hone]
    · have hb' : r.disk b = s.disk b := hdisk b hb
      have hupdated : ∀ b, r.updated (ending (s.inode p)) b = s.updated (ending (s.inode p)) b := by
        intro b
        unfold updated
        rw [hkept.time]
        rfl
      have hsame : r.s_ronly = s.s_ronly := hkept.s_ronly
      simp only [setInode]
      rw [hwritten, hslot, hsame]
      simp only [DiskErrors.none, Option.isNone_none, Bool.and_true, Option.map_none,
        Option.getD_none, hupdated]
      by_cases hwrite : ((ending (s.inode p)).iupd || (ending (s.inode p)).iacc) && !s.s_ronly
      · rw [if_pos hwrite]
        by_cases hblock : b = inodeBlock (ending (s.inode p)).i_number
        · rw [if_pos ⟨hone, hwrite, hblock⟩, hblock, update_self, ← hblock, hb']
        · rw [if_neg fun h => hblock h.2.2, update_of_ne hblock, hb']
      · rw [if_neg hwrite, if_neg fun h => hwrite h.2.1, hb']
  · unfold iput
    simp only [if_neg hone]
    refine ⟨?_, ⟨rfl, rfl, rfl⟩, fun b _ => ?_⟩
    · simp only [setInode, given, if_neg hone]
    · rw [if_neg fun h => hone h.1]
      rfl

end IgetSys

/-! ## Inodes on the disk, side by side -/

namespace IgetSys

/-- What `iupdat` puts into a block: the fields, and nothing into the other inodes there. -/
theorem updated_word (s : IgetSys) (i : Inode) (b : Block) {n k : ℕ} (hk : k < 12) :
    (s.updated i b).word (16 * n + k) =
      if 16 * n = inodeWord i.i_number then i.word k else b.word (16 * n + k) := by
  obtain ⟨m, hm⟩ : ∃ m, inodeWord i.i_number = 16 * m := ⟨_, rfl⟩
  have htimes : ∀ (b : Block) (w : ℕ → BitVec 16) (j : ℕ), 12 ≤ j → j ≤ 14 →
      (b.putWords (16 * m + j) 2 w).word (16 * n + k) = b.word (16 * n + k) := by
    intro b w j hlow hhigh
    rw [Block.word_putWords, if_neg (by omega)]
  have hfields : (s.updated i b).word (16 * n + k) =
      (b.putWords (16 * m) 12 i.word).word (16 * n + k) := by
    unfold updated
    rw [hm]
    dsimp only
    split_ifs <;>
      simp only [htimes _ _ 12 (by decide) (by decide), htimes _ _ 14 (by decide) le_rfl]
  rw [hfields, Block.word_putWords, hm]
  by_cases hplace : n = m
  · rw [if_pos (by omega), if_pos (by rw [hplace]), hplace, Nat.add_sub_cancel_left]
  · rw [if_neg (by omega), if_neg (by omega)]

end IgetSys

namespace NamiSys

open InodeSys (ending given)

variable {s : NamiSys} {p : InodePtr} {x y : ℤ × ℤ}

/-- An I list whose inodes have numbers that `int` arithmetic can find. -/
def ShortIlist (s : NamiSys) (dev : ℤ) : Prop := (s.device dev).fp.s_isize.toInt ≤ 2046

/-- The block of an inode is one of the I list, and not of a file. -/
theorem InIlist.place (h : s.InIlist x) (hshort : s.ShortIlist x.1) :
    ∃ n : ℕ, x.2 = n ∧ (inodeBlock x.2).toNat = (n + 31) / 16 ∧
      inodeWord x.2 = 16 * ((n + 31) % 16) ∧
      (s.device x.1).fp.badblock (inodeBlock x.2) = true := by
  obtain ⟨hlow, hhigh⟩ := h
  unfold ShortIlist at hshort
  obtain ⟨n, hn⟩ : ∃ n : ℕ, x.2 = n := ⟨x.2.toNat, by omega⟩
  obtain ⟨hblock, hword⟩ := inode_place (n := n) (by omega)
  rw [hn]
  refine ⟨n, rfl, hblock, hword, ?_⟩
  unfold Super.badblock
  rw [Bool.or_eq_true]
  left
  rw [BitVec.slt_iff_toInt_lt, BitVec.toInt_add, BitVec.toInt_eq_toNat_of_lt (by omega), hblock]
  have htwo : (2 : BitVec 16).toInt = 2 := by decide
  rw [htwo, Int.bmod_eq_of_le (by omega) (by omega)]
  omega

/-- Inodes that lie in the same place are the same. -/
theorem InIlist.eq_of_place {x y : ℤ × ℤ} (hx : s.InIlist x) (hy : s.InIlist y)
    (hshort : s.ShortIlist x.1) (hdev : x.1 = y.1) (hblock : inodeBlock x.2 = inodeBlock y.2)
    (hword : inodeWord x.2 = inodeWord y.2) : x = y := by
  obtain ⟨n, hn, hxblock, hxword, -⟩ := hx.place hshort
  obtain ⟨m, hm, hyblock, hyword, -⟩ := hy.place (hdev ▸ hshort)
  rw [hblock, hyblock] at hxblock
  rw [hword, hyword] at hxword
  refine Prod.ext hdev ?_
  rw [hn, hm]
  omega

/-- The last reference writes the inode of its slot to the disk, if it writes at all, and no other
inode. -/
theorem onDisk_iput (hname : s.InIlist ((s.inode p).i_dev, (s.inode p).i_number))
    (hx : s.InIlist x) (hshort : s.ShortIlist x.1) :
    (s.iput p).onDisk x =
      if (s.inode p).i_count = 1 ∧ (((ending (s.inode p)).iupd || (ending (s.inode p)).iacc) &&
          !(s.device x.1).s_ronly) = true ∧ x = ((s.inode p).i_dev, (s.inode p).i_number) then
        (ending (s.inode p)).toDinode
      else s.onDisk x := by
  have hnumber : (ending (s.inode p)).i_number = (s.inode p).i_number := by
    unfold InodeSys.ending InodeSys.truncated
    dsimp only
    split_ifs <;> rfl
  by_cases hdev : x.1 = (s.inode p).i_dev
  · obtain ⟨-, -, hdisk⟩ := (s.onDevice x.1).iput_alone p
    obtain ⟨n, -, -, hword, hbad⟩ := hx.place hshort
    have hblock : ((s.onDevice x.1).iput .none p).disk (inodeBlock x.2) =
        if (s.inode p).i_count = 1 ∧
            (((ending (s.inode p)).iupd || (ending (s.inode p)).iacc) &&
              !(s.device x.1).s_ronly) = true ∧
            inodeBlock x.2 = inodeBlock (s.inode p).i_number then
          (s.onDevice x.1).updated (ending (s.inode p)) ((s.device x.1).disk (inodeBlock x.2))
        else (s.device x.1).disk (inodeBlock x.2) := by
      rw [← hnumber]
      exact hdisk (inodeBlock x.2) hbad
    have hfound : (s.iput p).onDisk x = Dinode.ofWords fun k =>
        (((s.onDevice x.1).iput .none p).disk (inodeBlock x.2)).word
          (16 * ((n + 31) % 16) + k) := by
      unfold onDisk iput putDevice
      dsimp only
      rw [← hdev, update_self, hword]
    rw [hfound, hblock]
    by_cases hwrite : (s.inode p).i_count = 1 ∧
        (((ending (s.inode p)).iupd || (ending (s.inode p)).iacc) &&
          !(s.device x.1).s_ronly) = true ∧ inodeBlock x.2 = inodeBlock (s.inode p).i_number
    · rw [if_pos hwrite]
      obtain ⟨hone, hupd, hsame⟩ := hwrite
      by_cases hplace : inodeWord x.2 = inodeWord (s.inode p).i_number
      · rw [if_pos ⟨hone, hupd, hx.eq_of_place hname hshort hdev hsame hplace⟩,
          ← Dinode.ofWords_word (ending (s.inode p)).toDinode]
        refine Dinode.ofWords_congr fun k hk => ?_
        rw [IgetSys.updated_word _ _ _ hk, hnumber, ← hplace, if_pos hword.symm]
      · rw [if_neg fun h => hplace (by rw [h.2.2])]
        refine Dinode.ofWords_congr fun k hk => ?_
        rw [IgetSys.updated_word _ _ _ hk, hnumber, ← hword, if_neg hplace]
    · rw [if_neg hwrite, if_neg fun h => hwrite ⟨h.1, h.2.1, by rw [h.2.2]⟩, ← hword]
      rfl
  · have hother : ((s.iput p).device x.1) = s.device x.1 := update_of_ne hdev _ _
    rw [if_neg fun h => hdev (congrArg Prod.fst h.2.2)]
    unfold onDisk
    rw [hother]

end NamiSys

/-! ## One process of many -/

namespace InodeSys

variable {π κ : Type} [DecidableEq π] [DecidableEq κ] {M : MountTable κ} {t u : InodeSys π κ}
  {p : π} {k : κ} {ip : InodePtr}

/-- Another turn of the loop of `iget`. -/
theorem run_iget {name : ℤ × ℤ} {dev ino : ℤ} (hpc : t.pc p = .iget k name dev ino) :
    t.run M p false = t.iget M p k name dev ino := by
  simp only [run, hpc]

/-- `itrunc` is over, and `iupdat` is next. -/
theorem run_itrunc (hpc : t.pc p = .itrunc k) (hk : t.ref k = some ip) : t.run M p false =
    some ((t.setInode ip (truncated (t.inode ip))).iputUpdat M p k ip) := by
  simp only [run, hpc, hk, Option.map_some]

/-- The disk inode is written. -/
theorem run_iupdat {dev ino : ℤ} (hpc : t.pc p = .iupdat k dev ino) (hk : t.ref k = some ip) :
    t.run M p false = some ((t.iupdatCopy ip dev ino).goto p (.iupdatWrite k)) := by
  simp only [run, hpc, hk, Option.map_some]

/-- The end of `iput`. -/
theorem run_iupdatWrite (hpc : t.pc p = .iupdatWrite k) (hk : t.ref k = some ip) :
    t.run M p false = some (t.iputDone p k ip) := by
  simp only [run, hpc, hk, Option.map_some]

theorem run_igetRead {name : ℤ × ℤ} (hpc : t.pc p = .igetRead k name) (hk : t.ref k = some ip) :
    t.run M p false = some (t.igetDone p ip) := by
  simp only [run, hpc, hk, Option.map_some, Bool.false_eq_true, if_false]

/-- A reference has been given up, and the slot is `i`: nothing else has changed, but what the other
processes cannot see. -/
structure GaveUp (p : π) (k : κ) (ip : InodePtr) (i : Inode) (t t' : InodeSys π κ) : Prop where
  inode : t'.inode = update t.inode ip i
  ref : t'.ref = update t.ref k none
  pc : t'.pc = update t.pc p .idle
  locked : ∀ q, q ≠ p → t'.locked q = t.locked q
  own : t'.locked p = fun j => t.locked p j && t.ref j != some ip

/-- On the way to that, when `iupdat` looks at the slot. -/
structure GivesUp (p : π) (ip : InodePtr) (i : Inode) (t u : InodeSys π κ) : Prop where
  inode : u.inode = update t.inode ip i
  ref : u.ref = t.ref
  dinode : u.dinode = t.dinode
  pc : ∀ q, q ≠ p → u.pc q = t.pc q
  locked : ∀ q, q ≠ p → u.locked q = t.locked q
  own : ∀ j, t.ref j ≠ some ip → u.locked p j = t.locked p j

/-- The flags are cleared and the reference is gone. -/
theorem GivesUp.iputDone {i : Inode} (h : GivesUp p ip i t u) (k : κ) : GaveUp p k ip { i with
      ilock := false, iupd := false, iacc := false, imount := false, iwant := false
      i_count := i.i_count + -1#8, i_number := 0 } t (u.iputDone p k ip) where
  inode := by
    have hslot : u.inode ip = i := by rw [h.inode, update_self]
    unfold InodeSys.iputDone
    rw [hslot]
    exact (congrArg (update · ip _) h.inode).trans (update_idem ..)
  ref := by
    rw [← h.ref]
    rfl
  pc := by
    refine eq_update_iff.mpr ⟨update_self .., fun q hq => ?_⟩
    exact (update_of_ne hq _ _).trans (h.pc q hq)
  locked q hq := (update_of_ne hq _ _).trans (h.locked q hq)
  own := by
    have hown : (u.iputDone p k ip).locked p = fun j => u.locked p j && u.ref j != some ip :=
      update_self ..
    rw [hown, h.ref]
    funext j
    by_cases hj : t.ref j = some ip
    · rw [hj, bne_self_eq_false, Bool.and_false, Bool.and_false]
    · rw [h.own j hj]

omit [DecidableEq κ] in
/-- Where the process stands does not matter. -/
theorem GivesUp.goto {i : Inode} (h : GivesUp p ip i t u) (c : IgetPc κ) :
    GivesUp p ip i t (u.goto p c) :=
  ⟨h.inode, h.ref, h.dinode, fun q hq => (update_of_ne hq _ _).trans (h.pc q hq), h.locked, h.own⟩

variable [Fintype κ]

/-- One process goes on, its `bread` succeeds, and the step meets `Ok`. -/
def Own (p : π) (s : InodeSys π κ) (a : InodeAct π κ) : Prop := a = .run p false ∧ s.Ok a

/-- The process has gone on by itself. -/
abbrev GoesOn [Fintype π] (M : MountTable κ) (p : π) : InodeSys π κ → InodeSys π κ → Prop :=
  Reachable (step M) (Own p)

omit [DecidableEq π] [DecidableEq κ] in
/-- Only in the loop of `iget` may a reference come into being. -/
theorem own_run (hpc : ∀ k name dev ino, t.pc p ≠ .iget k name dev ino) :
    t.Own p (.run p false) := by
  refine ⟨rfl, ?_⟩
  cases hc : t.pc p with
  | iget k name dev ino => exact absurd hc (hpc k name dev ino)
  | idle | igetRead _ _ | plock _ | itrunc _ | iupdat _ _ _ | iupdatWrite _ | super | scan _
  | updRead _ _ _ | updWrite _ =>
    rw [Ok, hc]
    trivial

/-- The rest of `iput` from its `iupdat` on. -/
theorem GivesUp.runs [Fintype π] {i : Inode} (h : GivesUp p ip i t u) (hk : t.ref k = some ip) :
    ∃ t', GoesOn M p (u.iputUpdat M p k ip) t' ∧
      GaveUp p k ip { i with
        ilock := false, iupd := false, iacc := false, imount := false, iwant := false
        i_count := i.i_count + -1#8, i_number := 0 } t t' ∧
      ∀ dev ino, t'.dinode dev ino =
        if iupdatSlot M i = some (dev, ino) then i.toDinode else t.dinode dev ino := by
  have hslot : u.inode ip = i := by rw [h.inode, update_self]
  have huk : u.ref k = some ip := (congrFun h.ref k).trans hk
  unfold iputUpdat
  rw [hslot]
  cases hwrite : iupdatSlot M i with
  | none =>
    refine ⟨_, .refl, h.iputDone k, fun dev ino => ?_⟩
    rw [if_neg nofun, ← h.dinode]
    rfl
  | some x =>
    obtain ⟨d, n⟩ := x
    generalize hcopy : (u.goto p (.iupdat k d n)).iupdatCopy ip d n = v
    have hv : GivesUp p ip i { t with dinode := v.dinode } v := by
      rw [← hcopy]
      have hgoto := h.goto (.iupdat k d n)
      exact ⟨hgoto.inode, hgoto.ref, rfl, hgoto.pc, hgoto.locked, hgoto.own⟩
    have hgave := (hv.goto (.iupdatWrite k)).iputDone k
    refine ⟨_, ?_, ⟨hgave.inode, hgave.ref, hgave.pc, hgave.locked, hgave.own⟩, fun dev ino => ?_⟩
    · dsimp only
      have hvk : v.ref k = some ip := by
        rw [← hcopy]
        exact huk
      have hread : (u.goto p (.iupdat k d n)).pc p = .iupdat k d n := update_self ..
      have hwritten : (v.goto p (.iupdatWrite k)).pc p = .iupdatWrite k := update_self ..
      refine (Reachable.refl.tail (own_run fun _ _ _ _ h => ?_) ?_).tail
        (own_run fun _ _ _ _ h => ?_) (run_iupdatWrite hwritten hvk)
      · rw [hread] at h
        cases h
      · rw [← hcopy]
        exact run_iupdat hread huk
      · rw [hwritten] at h
        cases h
    · have hdinode : ((v.goto p (.iupdatWrite k)).iputDone p k ip).dinode =
          update t.dinode d (update (t.dinode d) n i.toDinode) := by
        rw [← hslot, ← h.dinode, ← hcopy]
        rfl
      rw [hdinode]
      simp only [Option.some.injEq, Prod.mk.injEq]
      rcases eq_or_ne dev d with rfl | hd
      · rw [update_self]
        rcases eq_or_ne ino n with rfl | hn
        · rw [update_self, if_pos ⟨rfl, rfl⟩]
        · rw [update_of_ne hn, if_neg fun h => hn h.2.symm]
      · rw [update_of_ne hd, if_neg fun h => hd h.1.symm]

/-- The last reference is given up. -/
theorem iput_runs_last [Fintype π] (hk : t.ref k = some ip) (hone : (t.inode ip).i_count = 1) :
    ∃ t', GoesOn M p (t.iput M p k ip) t' ∧
      GaveUp p k ip (given (t.inode ip)) t t' ∧
      ∀ dev ino, t'.dinode dev ino =
        if iupdatSlot M (ending (t.inode ip)) = some (dev, ino) then (ending (t.inode ip)).toDinode
        else t.dinode dev ino := by
  generalize hu : (t.setInode ip { t.inode ip with ilock := true }).setLocked p k = u
  have hiput : t.iput M p k ip =
      if (t.inode ip).i_nlink.toInt ≤ 0 then u.goto p (.itrunc k) else u.iputUpdat M p k ip := by
    rw [← hu]
    exact if_pos hone
  have hgives : GivesUp p ip { t.inode ip with ilock := true } t u := by
    rw [← hu]
    refine ⟨rfl, rfl, rfl, fun _ _ => rfl, fun q hq => update_of_ne hq _ _, fun j hj => ?_⟩
    have hjk : j ≠ k := fun hjk => hj (hjk ▸ hk)
    exact (congrFun (update_self ..) j).trans (update_of_ne hjk _ _)
  rw [hiput, given, if_pos hone]
  by_cases hlinks : (t.inode ip).i_nlink.toInt ≤ 0
  -- the file has no links: `itrunc` comes first
  · rw [if_pos hlinks]
    have hending : ending (t.inode ip) = truncated { t.inode ip with ilock := true } :=
      if_pos hlinks
    have hgoto := hgives.goto (.itrunc k)
    have hslot : (u.goto p (.itrunc k)).inode ip = { t.inode ip with ilock := true } := by
      rw [hgoto.inode, update_self]
    have hpc : (u.goto p (.itrunc k)).pc p = .itrunc k := update_self ..
    generalize u.goto p (.itrunc k) = v at *
    have htrunc : GivesUp p ip (ending (t.inode ip)) t
        (v.setInode ip (truncated (v.inode ip))) := by
      refine ⟨?_, hgoto.ref, hgoto.dinode, hgoto.pc, hgoto.locked, hgoto.own⟩
      rw [hending, ← hslot]
      exact (congrArg (update · ip _) hgoto.inode).trans (update_idem ..)
    obtain ⟨t', hrun, hgave⟩ := htrunc.runs (M := M) hk
    refine ⟨t', (Reachable.refl.tail (own_run fun _ _ _ _ h => ?_) ?_).trans hrun, hgave⟩
    · rw [hpc] at h
      cases h
    · exact run_itrunc hpc ((congrFun hgoto.ref k).trans hk)
  · rw [if_neg hlinks]
    have hending : ending (t.inode ip) = { t.inode ip with ilock := true } := if_neg hlinks
    rw [hending]
    exact hgives.runs hk

/-- A call of `iput` that is not disturbed. -/
theorem iput_runs [Fintype π] (hk : t.ref k = some ip) : ∃ t',
    GoesOn M p (t.iput M p k ip) t' ∧
      GaveUp p k ip (given (t.inode ip)) t t' ∧
      ∀ dev ino, t'.dinode dev ino =
        if (t.inode ip).i_count = 1 ∧ iupdatSlot M (ending (t.inode ip)) = some (dev, ino) then
          (ending (t.inode ip)).toDinode
        else t.dinode dev ino := by
  by_cases hone : (t.inode ip).i_count = 1
  · obtain ⟨t', hrun, hgave, hdinode⟩ := iput_runs_last (M := M) (p := p) hk hone
    refine ⟨t', hrun, hgave, fun dev ino => ?_⟩
    simpa only [hone, true_and] using hdinode dev ino
  · have hiput : t.iput M p k ip = (((t.setInode ip { t.inode ip with
        i_count := (t.inode ip).i_count + -1#8, ilock := false, iwant := false }).unlocked p
          ip).setRef k none).goto p .idle := if_neg hone
    rw [hiput, given, if_neg hone]
    refine ⟨_, .refl, ⟨rfl, rfl, rfl, fun _ hq => update_of_ne hq _ _, update_self ..⟩,
      fun dev ino => ?_⟩
    rw [if_neg fun h => hone h.1]
    rfl

end InodeSys

/-! ## The two tables -/

namespace InodeSys

/-- The slot is still that of its inode. -/
theorem ending_name (i : Inode) :
    (ending i).i_dev = i.i_dev ∧ (ending i).i_number = i.i_number := by
  unfold ending truncated
  dsimp only
  split_ifs <;> exact ⟨rfl, rfl⟩

/-- A marked slot is written to its own inode on the disk. -/
theorem iupdatSlot_eq_some {κ : Type} {M : MountTable κ} {i : Inode} {x : ℤ × ℤ} :
    iupdatSlot M i = some x ↔
      ((i.iupd || i.iacc) && !M.s_ronly i.i_dev) = true ∧ x = (i.i_dev, i.i_number) := by
  unfold iupdatSlot
  rw [Option.ite_none_right_eq_some, Option.some.injEq, eq_comm (a := x)]

end InodeSys

namespace NamiSys

variable {π κ : Type} [DecidableEq π] [DecidableEq κ] {M : MountTable κ} {s s' : NamiSys}
  {t t' : InodeSys π κ} {p : π} {k : κ} {ip : InodePtr} {x : ℤ × ℤ}

/-- The tables are those that one process sees among others, none of which is at work. -/
structure Shows (M : MountTable κ) (p : π) (s : NamiSys) (t : InodeSys π κ) : Prop where
  inode : t.inode = s.inode
  dinode : ∀ x, s.InIlist x → t.dinode x.1 x.2 = s.onDisk x
  m_inodp : s.m_inodp = M.m_inodp
  m_dev : s.m_dev = M.m_dev
  s_ronly : ∀ dev, (s.device dev).s_ronly = M.s_ronly dev
  short : ∀ dev, s.ShortIlist dev
  roots : ∀ m, s.m_inodp m ≠ none → s.InIlist (s.m_dev m, ROOTINO)
  idle : ∀ q, q ≠ p → t.pc q = .idle
  unlocked : ∀ q, q ≠ p → ∀ j, t.locked q j = false

omit [DecidableEq π] [DecidableEq κ] in
/-- The tables may change if the disk inodes stay. -/
theorem Shows.of_same (h : Shows M p s t) (hsame : Same s s') (hinode : t'.inode = s'.inode)
    (hdinode : t'.dinode = t.dinode) (hpc : ∀ q, q ≠ p → t'.pc q = t.pc q)
    (hlocked : ∀ q, q ≠ p → t'.locked q = t.locked q) : Shows M p s' t' where
  inode := hinode
  dinode x hx := by
    unfold InIlist at hx
    unfold onDisk
    rw [hsame.device] at hx ⊢
    rw [hdinode]
    exact h.dinode x hx
  m_inodp := hsame.m_inodp.trans h.m_inodp
  m_dev := hsame.m_dev.trans h.m_dev
  s_ronly dev := by rw [hsame.device, h.s_ronly]
  short dev := by
    unfold ShortIlist
    rw [hsame.device]
    exact h.short dev
  roots m hm := by
    unfold InIlist
    rw [hsame.device, hsame.m_dev]
    rw [hsame.m_inodp] at hm
    exact h.roots m hm
  idle q hq := (hpc q hq).trans (h.idle q hq)
  unlocked q hq j := by rw [hlocked q hq, h.unlocked q hq]

/-- A call of `iput`. -/
theorem Shows.iput [Fintype π] [Fintype κ] (h : Shows M p s t) (hk : t.ref k = some ip)
    (hname : s.InIlist ((s.inode ip).i_dev, (s.inode ip).i_number)) :
    ∃ t', InodeSys.GoesOn M p (t.iput M p k ip) t' ∧ Shows M p (s.iput ip) t' ∧
      t'.pc p = .idle ∧ t'.ref = update t.ref k none ∧
      t'.locked p = fun j => t.locked p j && t.ref j != some ip := by
  obtain ⟨t', hrun, hgave, hdinode⟩ := InodeSys.iput_runs (M := M) (p := p) hk
  obtain ⟨hinode, hkept, -⟩ := (s.onDevice (s.inode ip).i_dev).iput_alone ip
  -- the super blocks stay
  have hsuper : ∀ dev, ((s.iput ip).device dev).fp = (s.device dev).fp ∧
      ((s.iput ip).device dev).s_ronly = (s.device dev).s_ronly := by
    intro dev
    rcases eq_or_ne dev (s.inode ip).i_dev with rfl | hdev
    · have hself : (s.iput ip).device (s.inode ip).i_dev = _ := update_self ..
      rw [hself]
      exact ⟨hkept.fp, hkept.s_ronly⟩
    · have hother : (s.iput ip).device dev = s.device dev := update_of_ne hdev ..
      rw [hother]
      exact ⟨rfl, rfl⟩
  have hlist : ∀ x, (s.iput ip).InIlist x ↔ s.InIlist x := by
    intro x
    unfold InIlist
    rw [(hsuper x.1).1]
  refine ⟨t', hrun, ⟨?_, fun x hx => ?_, h.m_inodp, h.m_dev, fun dev => ?_, fun dev => ?_,
    fun m hm => (hlist _).mpr (h.roots m hm), fun q hq => ?_, fun q hq j => ?_⟩, ?_, hgave.ref,
    hgave.own⟩
  · rw [hgave.inode, h.inode]
    exact hinode.symm
  -- the disk inode of the slot is written by both, or by neither
  · rw [hlist] at hx
    obtain ⟨hdev, hnumber⟩ := InodeSys.ending_name (s.inode ip)
    rw [hdinode, onDisk_iput hname hx (h.short _), h.inode, h.dinode x hx]
    congr 1
    rw [eq_iff_iff, InodeSys.iupdatSlot_eq_some, hdev, hnumber, ← h.s_ronly]
    constructor
    · rintro ⟨hone, hwrite, hx⟩
      have hxdev : x.1 = (s.inode ip).i_dev := congrArg Prod.fst hx
      exact ⟨hone, by rw [hxdev]; exact hwrite, hx⟩
    · rintro ⟨hone, hwrite, hx⟩
      have hxdev : x.1 = (s.inode ip).i_dev := congrArg Prod.fst hx
      exact ⟨hone, by rw [← hxdev]; exact hwrite, hx⟩
  · rw [(hsuper dev).2, h.s_ronly]
  · unfold ShortIlist
    rw [(hsuper dev).1]
    exact h.short dev
  · rw [hgave.pc, update_of_ne hq, h.idle q hq]
  · rw [hgave.locked q hq, h.unlocked q hq]
  · rw [hgave.pc, update_self]

end NamiSys

namespace NamiSys

variable {π κ : Type} [DecidableEq π] [DecidableEq κ] {M : MountTable κ} {s s' : NamiSys}
  {t t' : InodeSys π κ} {p : π} {k : κ} {ip : InodePtr} {x : ℤ × ℤ} {r : Option InodePtr}

omit [DecidableEq κ] in
/-- Where the process stands does not matter. -/
theorem Shows.goto (h : Shows M p s t) (c : IgetPc κ) : Shows M p s (t.goto p c) :=
  h.of_same ⟨rfl, rfl, rfl, rfl, rfl⟩ h.inode rfl (fun _ hq => update_of_ne hq _ _) fun _ _ => rfl

/-- What a call of `iget` for a holder has returned. -/
structure Got (M : MountTable κ) (p : π) (k : κ) (r : Option InodePtr) (s' : NamiSys)
    (t t' : InodeSys π κ) : Prop where
  shows : Shows M p s' t'
  idle : t'.pc p = .idle
  ref : t'.ref = update t.ref k r
  locked : t'.locked p = if r = none then t.locked p else update (t.locked p) k true

/-- An inode in core gets one more reference. -/
theorem Shows.got_core (h : Shows M p s t) (i : Inode) :
    Got M p k (some ip) (s.setInode ip i) t (((t.setInode ip i).take p k ip).goto p .idle) where
  shows := by
    have hsame : Same s (s.setInode ip i) := ⟨rfl, rfl, rfl, rfl, rfl⟩
    refine h.of_same hsame ?_ rfl (fun q hq => update_of_ne hq _ _) fun q hq => update_of_ne hq _ _
    exact congrArg (update · ip i) h.inode
  idle := update_self ..
  ref := rfl
  locked := update_self ..

/-- The table is full. -/
theorem Shows.got_full (h : Shows M p s t) (hk : t.ref k = none) {s' : NamiSys} (hsame : Same s s')
    (hinode : s'.inode = s.inode) : Got M p k none s' t (t.goto p .idle) where
  shows := h.of_same hsame (h.inode.trans hinode.symm) rfl (fun q hq => update_of_ne hq _ _)
    fun _ _ => rfl
  idle := update_self ..
  ref := by
    rw [← hk, update_eq_self]
    rfl
  locked := rfl

/-- An inode is read in. -/
theorem Shows.got_read (h : Shows M p s t) {s' : NamiSys} (hsame : Same s s') {i : Inode}
    {name : ℤ × ℤ} (hinode : s'.inode = update s.inode ip
      { i with toDinode := t.dinode i.i_dev i.i_number }) :
    Got M p k (some ip) s' t
      ((((t.setInode ip i).take p k ip).goto p (.igetRead k name)).igetDone p ip) where
  shows := by
    refine h.of_same hsame ?_ rfl (fun q hq => ?_) fun q hq => update_of_ne hq _ _
    · rw [hinode, ← h.inode]
      unfold InodeSys.igetDone InodeSys.goto InodeSys.take InodeSys.setInode
      simp only [InodeSys.setRef, InodeSys.setLocked, update_self, update_idem]
    · exact (update_of_ne hq _ _).trans (update_of_ne hq _ _)
  idle := update_self ..
  ref := rfl
  locked := update_self ..

/-- A call of `iget` that is not disturbed, by induction on the mounts that it crosses. -/
theorem Shows.iget [Fintype π] [Fintype κ] (h : Shows M p s t) (hx : s.InIlist x)
    (hk : t.ref k = none) (hrefs : ∀ ip, t.refs ip < 255) (name : ℤ × ℤ) {n : ℕ}
    (hget : NamiSys.iget n s x = some (r, s')) : ∃ t₁ t',
    t.iget M p k name x.1 x.2 = some t₁ ∧ InodeSys.GoesOn M p t₁ t' ∧ Got M p k r s' t t' := by
  induction n generalizing x t with
  | zero => cases hget
  | succ n ih =>
    have hfind : t.findInode x.1 x.2 = s.findInode x := by
      unfold InodeSys.findInode findInode
      rw [h.inode]
    have hfree : t.findFree = (s.onDevice x.1).findFree := by
      unfold InodeSys.findFree IgetSys.findFree
      rw [h.inode]
      rfl
    unfold NamiSys.iget at hget
    unfold InodeSys.iget
    rw [hfind, hfree, h.inode]
    cases hfound : s.findInode x with
    | some ip =>
      simp only [hfound] at hget ⊢
      obtain ⟨hunlocked, hget⟩ := Option.ite_none_left_eq_some.mp hget
      rw [if_neg hunlocked]
      by_cases hmount : (s.inode ip).imount = true
      -- over to the root of the device that is mounted
      · rw [if_pos hmount] at hget ⊢
        obtain ⟨m, hm, hget⟩ := Option.bind_eq_some_iff.mp hget
        have hm' : InodeSys.findMount M ip = some m := by
          unfold InodeSys.findMount
          rw [← h.m_inodp]
          exact hm
        have hmounted : s.m_inodp m ≠ none := by
          have hentry := List.find?_some hm
          rw [beq_iff_eq] at hentry
          rw [hentry]
          exact Option.some_ne_none ip
        rw [hm', ← h.m_dev]
        have hpc : (t.goto p (.iget k name (s.m_dev m) ROOTINO)).pc p =
          .iget k name (s.m_dev m) ROOTINO := update_self ..
        obtain ⟨t₁, t', hturn, hrun, hgot⟩ :=
          ih (h.goto (.iget k name (s.m_dev m) ROOTINO)) (h.roots m hmounted) hk hrefs hget
        have hfirst : InodeSys.GoesOn M p (t.goto p (.iget k name (s.m_dev m) ROOTINO)) t₁ := by
          refine Reachable.refl.tail (a := .run p false) ⟨rfl, ?_⟩
            ((InodeSys.run_iget hpc).trans hturn)
          rw [InodeSys.Ok, hpc]
          exact fun ip _ => hrefs ip
        exact ⟨_, t', rfl, hfirst.trans hrun, hgot.shows, hgot.idle, hgot.ref, hgot.locked⟩
      · rw [if_neg hmount] at hget ⊢
        obtain ⟨rfl, rfl⟩ := Prod.mk.inj (Option.some.inj hget)
        exact ⟨_, _, rfl, .refl, h.got_core _⟩
    | none =>
      simp only [hfound] at hget ⊢
      obtain ⟨c, hdevice, hc⟩ := Option.map_eq_some_iff.mp hget
      have habsent : (s.onDevice x.1).findInode x.1 x.2 = none := hfound
      obtain ⟨rfl, rfl⟩ := Prod.mk.inj hc
      cases hslot : (s.onDevice x.1).findFree with
      | none =>
        unfold IgetSys.iget at hdevice
        rw [habsent, hslot] at hdevice
        obtain rfl := Option.some.inj hdevice
        have hsame : Same s (s.putDevice x.1 { s.onDevice x.1 with u_error := ENFILE }) :=
          (Same.putDevice ⟨rfl, rfl, rfl, rfl, rfl⟩ rfl rfl rfl rfl rfl rfl)
        exact ⟨_, _, rfl, .refl, h.got_full hk hsame rfl⟩
      | some ip =>
        rw [iget_free habsent hslot] at hdevice
        obtain rfl := Option.some.inj hdevice
        generalize hi : (s.onDevice x.1).claimed ip x.1 x.2 = i
        generalize ht₁ : ((t.setInode ip i).take p k ip).goto p (.igetRead k name) = t₁
        have hpc : t₁.pc p = .igetRead k name := by
          rw [← ht₁]
          exact update_self ..
        have href : t₁.ref k = some ip := by
          rw [← ht₁]
          exact update_self ..
        have hread : Dinode.ofWords (fun j => ((s.onDevice x.1).disk (inodeBlock x.2)).word
            (inodeWord x.2 + j)) = t.dinode i.i_dev i.i_number := by
          rw [← hi]
          exact (h.dinode x hx).symm
        refine ⟨t₁, t₁.igetDone p ip, ?_, Reachable.refl.tail (InodeSys.own_run ?_)
          (InodeSys.run_igetRead hpc href), ?_⟩
        · rw [← ht₁, ← hi]
          rfl
        · intro _ _ _ _ h
          rw [hpc] at h
          cases h
        · rw [← ht₁, hread]
          exact h.got_read (Same.putDevice ⟨rfl, rfl, rfl, rfl, rfl⟩ rfl rfl rfl rfl rfl rfl) rfl

end NamiSys

/-! ## Calls one after another -/

/-- The tables, and of the references of one process: where they point to, and which of the inodes
it has locked. -/
structure InodeCalls (κ : Type) where
  sys : NamiSys
  ref : κ → Option InodePtr
  locked : κ → Bool

/-- A call for the holder of a reference. -/
inductive InodeCall (κ : Type)
  | iget (k : κ) (x : ℤ × ℤ)
  | prele (k : κ)
  | iput (k : κ)

/-- The call by the process `p`. -/
def InodeCall.act {π κ : Type} (p : π) : InodeCall κ → InodeAct π κ
  | .iget k x => .iget p k x.1 x.2
  | .prele k => .prele p k
  | .iput k => .iput p k

/-- `prele`. -/
def NamiSys.prele (s : NamiSys) (p : InodePtr) : NamiSys :=
  s.setInode p { s.inode p with ilock := false, iwant := false }

namespace InodeCalls

variable {π κ : Type} [DecidableEq π] [DecidableEq κ]

/-- What is locked when `ip` is not any more. -/
def unlocked (c : InodeCalls κ) (ip : InodePtr) : κ → Bool :=
  fun j => c.locked j && c.ref j != some ip

/-- One call, which comes back before the next one. -/
def call (fuel : ℕ) (c : InodeCalls κ) : InodeCall κ → Option (InodeCalls κ)
  | .iget k x =>
    if c.ref k = none then
      (NamiSys.iget fuel c.sys x).map fun r =>
        { sys := r.2
          ref := update c.ref k r.1
          locked := if r.1 = none then c.locked else update c.locked k true }
    else none
  | .prele k =>
    if c.locked k then
      (c.ref k).map fun ip => { c with sys := c.sys.prele ip, locked := c.unlocked ip }
    else none
  | .iput k =>
    (c.ref k).map fun ip =>
      { sys := c.sys.iput ip, ref := update c.ref k none, locked := c.unlocked ip }

/-- The inode is one of an I list, no slot gets its 256th reference, and a mount keeps its own. -/
def Legal [Fintype κ] (M : MountTable κ) (c : InodeCalls κ) : InodeCall κ → Prop
  | .iget _ x => c.sys.InIlist x ∧ ∀ ip, rowRefs c.ref ip < 255
  | .prele _ => True
  | .iput k => (∀ ip, c.ref k = some ip →
      c.sys.InIlist ((c.sys.inode ip).i_dev, (c.sys.inode ip).i_number)) ∧
      ∀ m, M.m_inodp m ≠ none → M.m_ref m ≠ k

instance [Fintype κ] (M : MountTable κ) (c : InodeCalls κ) :
    (a : InodeCall κ) → Decidable (c.Legal M a)
  | .iget _ x => inferInstanceAs
      (Decidable ((1 ≤ x.2 ∧ x.2 ≤ 16 * (c.sys.device x.1).fp.s_isize.toInt) ∧
        ∀ ip, rowRefs c.ref ip < 255))
  | .prele _ => .isTrue trivial
  | .iput k => inferInstanceAs
      (Decidable ((∀ ip, c.ref k = some ip → 1 ≤ (c.sys.inode ip).i_number ∧
        (c.sys.inode ip).i_number ≤ 16 * (c.sys.device (c.sys.inode ip).i_dev).fp.s_isize.toInt) ∧
        ∀ m, M.m_inodp m ≠ none → M.m_ref m ≠ k))

/-- The process is idle, with the same references. -/
structure Matches (M : MountTable κ) (p : π) (c : InodeCalls κ) (t : InodeSys π κ) : Prop where
  shows : NamiSys.Shows M p c.sys t
  idle : t.pc p = .idle
  ref : t.ref = c.ref
  locked : t.locked p = c.locked

/-- The process makes the calls in this order, and each comes back before the next one. -/
inductive Makes [Fintype π] [Fintype κ] (M : MountTable κ) (p : π) :
    List (InodeCall κ) → InodeSys π κ → InodeSys π κ → Prop
  | nil {t : InodeSys π κ} : Makes M p [] t t
  | cons {a : InodeCall κ} {as : List (InodeCall κ)} {t t₁ t₂ t' : InodeSys π κ}
      (hcall : t.step M (a.act p) = some t₁) (hok : t.Ok (a.act p))
      (hrun : InodeSys.GoesOn M p t₁ t₂) (hrest : Makes M p as t₂ t') : Makes M p (a :: as) t t'

variable {M : MountTable κ} {p : π} {c c' : InodeCalls κ} {t t' t₀ : InodeSys π κ} {fuel : ℕ}

/-- Every step of such a run meets `Ok`. -/
theorem Makes.reachable [Fintype π] [Fintype κ] {as : List (InodeCall κ)} (h : Makes M p as t t') :
    Reachable (InodeSys.step M) InodeSys.Ok t t' := by
  induction h with
  | nil => exact .refl
  | @cons _ _ t t₁ t₂ _ hcall hok hrun _ ih =>
    have hfirst : Reachable (InodeSys.step M) InodeSys.Ok t t₁ := Reachable.refl.tail hok hcall
    have hsecond : Reachable (InodeSys.step M) InodeSys.Ok t t₂ :=
      hrun.invariant hfirst fun _ _ _ hreach ha hs => hreach.tail ha.2 hs
    exact hsecond.trans ih

omit [DecidableEq π] [DecidableEq κ] in
/-- All processes are idle. -/
theorem Matches.pc (h : Matches M p c t) (q : π) : t.pc q = .idle := by
  by_cases hq : q = p
  · rw [hq, h.idle]
  · exact h.shows.idle q hq

omit [DecidableEq π] [DecidableEq κ] in
/-- No `iget` or `iput` is in progress. -/
theorem Matches.settled (h : Matches M p c t) (k : κ) : t.Settled k := by
  intro q hholder
  rw [h.pc q] at hholder
  cases hholder

/-- Each call is a step of the process and what follows from it. -/
theorem Matches.call [Fintype π] [Fintype κ] (h : Matches M p c t) {a : InodeCall κ}
    (ha : c.Legal M a) (hs : c.call fuel a = some c') :
    ∃ t₁ t', t.step M (a.act p) = some t₁ ∧ t.Ok (a.act p) ∧ InodeSys.GoesOn M p t₁ t' ∧
      Matches M p c' t' := by
  cases a with
  | iget k x =>
    obtain ⟨hnone, hs⟩ := Option.ite_none_right_eq_some.mp hs
    obtain ⟨⟨r, s'⟩, hget, rfl⟩ := Option.map_eq_some_iff.mp hs
    obtain ⟨hx, hrefs⟩ := ha
    have hk : t.ref k = none := by rw [h.ref, hnone]
    have hrefs' : ∀ ip, t.refs ip < 255 := by
      unfold InodeSys.refs
      rw [h.ref]
      exact hrefs
    obtain ⟨t₁, t', hturn, hrun, hgot⟩ := h.shows.iget hx hk hrefs' x hget
    refine ⟨t₁, t', ?_, fun ip _ => hrefs' ip, hrun, hgot.shows, hgot.idle, ?_, ?_⟩
    · exact (if_pos ⟨h.idle, hk, h.settled k, hx.ne_zero⟩).trans hturn
    · rw [hgot.ref, h.ref]
    · rw [hgot.locked, h.locked]
  | prele k =>
    obtain ⟨hlocked, hs⟩ := Option.ite_none_right_eq_some.mp hs
    obtain ⟨ip, hk, rfl⟩ := Option.map_eq_some_iff.mp hs
    rw [← h.ref] at hk
    rw [← h.locked] at hlocked
    refine ⟨_, (t.prele ip).unlocked p ip, ?_, trivial, .refl,
      h.shows.of_same ⟨rfl, rfl, rfl, rfl, rfl⟩ ?_ rfl (fun _ _ => rfl)
        fun q hq => update_of_ne hq _ _, h.idle, h.ref, ?_⟩
    · refine (if_pos ⟨h.idle, hlocked, h.settled k⟩).trans ?_
      rw [hk]
      rfl
    · have hinode : ((t.prele ip).unlocked p ip).inode =
          update t.inode ip { t.inode ip with ilock := false, iwant := false } := rfl
      rw [hinode, h.shows.inode]
      rfl
    · have hown : ((t.prele ip).unlocked p ip).locked p =
          fun j => t.locked p j && t.ref j != some ip := update_self ..
      rw [hown, h.ref, h.locked]
      rfl
  | iput k =>
    obtain ⟨ip, hk, rfl⟩ := Option.map_eq_some_iff.mp hs
    obtain ⟨hname, hmount⟩ := ha
    have hname := hname ip hk
    rw [← h.ref] at hk
    obtain ⟨t', hrun, hshows, hidle, href, hlocked⟩ := h.shows.iput hk hname
    have hunused : ¬ t.UsedByOther p k := by
      rintro ⟨q, hq, hlock | hwait⟩
      · rw [h.shows.unlocked q hq] at hlock
        cases hlock
      · rw [h.pc q] at hwait
        cases hwait
    refine ⟨_, t', ?_, fun _ _ _ q _ => ?_, hrun, hshows, hidle, by rw [href, h.ref], ?_⟩
    · refine (if_pos ⟨h.idle, h.settled k, hunused, hmount⟩).trans ?_
      rw [hk]
      rfl
    · rw [h.pc q]
      exact nofun
    · rw [hlocked, h.ref, h.locked]
      rfl

/-- Calls one after another are made by the process, while the others stay idle. -/
theorem Matches.run [Fintype π] [Fintype κ] {as : List (InodeCall κ)} (h : Matches M p c t)
    (hc : checkedSteps (InodeCalls.call fuel) (fun c a => decide (Legal M c a)) as c = some c') :
    ∃ t', Makes M p as t t' ∧ Matches M p c' t' := by
  induction as generalizing c t with
  | nil =>
    obtain rfl : c = c' := Option.some.inj hc
    exact ⟨t, .nil, h⟩
  | cons a as ih =>
    obtain ⟨ha, hc⟩ := Option.ite_none_right_eq_some.mp hc
    obtain ⟨c₁, hs, hc⟩ := Option.bind_eq_some_iff.mp hc
    obtain ⟨t₁, t₂, hcall, hok, hrun, hmatches⟩ := h.call (of_decide_eq_true ha) hs
    obtain ⟨t', hmakes, hmatches'⟩ := ih hmatches hc
    exact ⟨t', .cons hcall hok hrun hmakes, hmatches'⟩

/-- The inode table as the callers want it: the counts are those of the references, a free slot has
no number, and an inode has one slot. -/
structure InOrder [Fintype κ] (c : InodeCalls κ) : Prop where
  count : ∀ ip, (c.sys.inode ip).i_count.toNat = rowRefs c.ref ip
  free : ∀ ip, (c.sys.inode ip).i_count = 0 → (c.sys.inode ip).i_number = 0
  unique : ∀ ip ip', (c.sys.inode ip).i_count ≠ 0 → (c.sys.inode ip').i_count ≠ 0 →
    (c.sys.inode ip).name = (c.sys.inode ip').name → ip = ip'

omit [DecidableEq π] [DecidableEq κ] in
/-- What the invariant of the concurrent table says about the tables of one process. -/
theorem Matches.inOrder [Fintype κ] (h : Matches M p c t) (hinv : t.Inv M) : c.InOrder where
  count ip := by
    have hslot := hinv.slot ip
    have hcount := hslot.count
    rw [h.shows.inode] at hcount
    rw [hcount, BitVec.toNat_ofNat, Nat.mod_eq_of_lt hslot.bound]
    unfold InodeSys.refs
    rw [h.ref]
  free ip hzero := by
    rw [← h.shows.inode] at hzero ⊢
    exact ((hinv.slot ip).free ((hinv.slot ip).refs_eq_zero hzero)).1
  unique ip ip' := by
    rw [← h.shows.inode]
    intro hip hip'
    exact hinv.unique ip ip' ((hinv.slot ip).count_ne hip) ((hinv.slot ip').count_ne hip')

/-- The `iget` and `iput` of `namei` do what those of the table do that processes share: calls that
one process makes, while the others are idle, lead to the same slots and the same inodes on the
disk; so the table stays in order. -/
theorem calls_run_alone [Fintype π] [Fintype κ] {c₀ : InodeCalls κ} {as : List (InodeCall κ)}
    (h₀ : t₀.Booted M) (h : Matches M p c₀ t₀)
    (hc : checkedSteps (InodeCalls.call fuel) (fun c a => decide (Legal M c a)) as c₀ = some c) :
    (∃ t, Makes M p as t₀ t ∧ Matches M p c t) ∧ c.InOrder := by
  obtain ⟨t, hmakes, hmatches⟩ := h.run hc
  exact ⟨⟨t, hmakes, hmatches⟩, hmatches.inOrder (InodeSys.inv_of_reachable h₀ hmakes.reachable)⟩

/-- The one file, with nothing in core. -/
def coldFile : InodeCalls (Fin 3) where
  sys := { NamiSys.oneFile with inode := fun _ => {} }
  ref _ := none
  locked _ := false

theorem coldFile_matches : Matches InodeSys.noMounts (0 : Fin 3) coldFile
    (InodeSys.boot fun dev ino => coldFile.sys.onDisk (dev, ino)) where
  shows := by
    have hisize : ∀ dev, (coldFile.sys.device dev).fp.s_isize.toInt = 10 := fun _ => rfl
    refine ⟨rfl, fun _ _ => rfl, rfl, rfl, fun _ => rfl, fun dev => ?_, fun m hm => absurd rfl hm,
      fun _ _ => rfl, fun _ _ _ => rfl⟩
    unfold NamiSys.ShortIlist
    rw [hisize]
    decide
  idle := rfl
  ref := rfl
  locked := rfl

/-- Two references to the file, of which one is given back; then inode 1, which has no links, is
read in and freed. -/
theorem calls_run_alone_coldFile : ∃ c, runSteps (InodeCalls.call 1) [.iget 0 (0, 2), .prele 0,
      .iget 1 (0, 2), .prele 1, .iput 0, .iget 2 (0, 1), .iput 2] coldFile = some c ∧
    (c.sys.inode 0).i_count = 1 ∧ (c.sys.device 0).s_inode.1 = [1] ∧
    (∃ t, Makes InodeSys.noMounts 0 [.iget 0 (0, 2), .prele 0, .iget 1 (0, 2), .prele 1, .iput 0,
        .iget 2 (0, 1), .iput 2] (InodeSys.boot fun dev ino => coldFile.sys.onDisk (dev, ino)) t ∧
      Matches InodeSys.noMounts (0 : Fin 3) c t) ∧ c.InOrder := by
  have hrun : (checkedSteps (InodeCalls.call 1) (fun c a => decide (Legal InodeSys.noMounts c a))
      [.iget 0 (0, 2), .prele 0, .iget 1 (0, 2), .prele 1, .iput 0, .iget 2 (0, 1), .iput 2]
      coldFile).any (fun c =>
        decide ((c.sys.inode 0).i_count = 1 ∧ (c.sys.device 0).s_inode.1 = [1])) = true := by
    decide +kernel
  obtain ⟨c, hc, hcheck⟩ := (Option.any_eq_true _ _).mp hrun
  obtain ⟨hcount, hspare⟩ := of_decide_eq_true hcheck
  exact ⟨c, runSteps_of_checkedSteps hc, hcount, hspare,
    calls_run_alone (InodeSys.booted_boot _ fun _ => rfl) coldFile_matches hc⟩

end InodeCalls

end UnixV6
