import UnixV6.Tools.MkfsFree
import UnixV6.Tools.MkfsTree

/-!
# Where `mkfs` writes its inodes

`cfile` compares a sixteenth of the inode number, rounded down, with the number of blocks that the
inodes have; that lets 15 numbers pass that have no place there. The block in which it writes an
inode is found from the 16 bits of `i_number`. `Numbered` says which numbers have been given, and
for which of them the inode has been written; every function keeps it.
-/

namespace UnixV6.Mkfs

variable {E : Env}

/-! ## The blocks of the inodes -/

/-- The block in which `cfile` writes the inode numbered `n`. -/
def iblock (n : ℕ) : ℤ := (BitVec.ofNat 16 n + 31).toInt.tdiv 16

/-- `isize` blocks have a place for the inode numbered `n`. -/
def Fits (s_isize : BitVec 16) (n : ℕ) : Prop :=
  1 ≤ n % 65536 ∧ n % 65536 ≤ min (16 * s_isize.toNat) 32736

instance (s_isize : BitVec 16) (n : ℕ) : Decidable (Fits s_isize n) :=
  inferInstanceAs (Decidable (1 ≤ n % 65536 ∧ n % 65536 ≤ min (16 * s_isize.toNat) 32736))

/-- An inode is in the area of the inodes if its number fits. -/
theorem iblock_area_iff (s_isize : BitVec 16) (n : ℕ) :
    (2 ≤ iblock n ∧ iblock n ≤ s_isize.toNat + 1) ↔ Fits s_isize n := by
  have hsum : (BitVec.ofNat 16 n + 31).toNat = (n % 65536 + 31) % 65536 := by
    rw [BitVec.toNat_add, BitVec.toNat_ofNat]
    rfl
  unfold iblock Fits
  by_cases hneg : (n % 65536 + 31) % 65536 < 32768
  · have hint : (BitVec.ofNat 16 n + 31).toInt = ((n % 65536 + 31) % 65536 : ℕ) := by
      rw [BitVec.toInt_eq_toNat_of_lt (by omega), hsum]
    rw [hint, Int.tdiv_eq_ediv_of_nonneg (by omega)]
    omega
  · -- the number has become negative, and the block is not even 1
    have hint : (BitVec.ofNat 16 n + 31).toInt = -(65536 - ((n % 65536 + 31) % 65536 : ℕ) : ℤ) := by
      rw [BitVec.toInt_eq_toNat_cond, if_neg (by omega), hsum]
      omega
    rw [hint, Int.neg_tdiv, Int.tdiv_eq_ediv_of_nonneg (by omega)]
    omega

/-! ## The numbers -/

/-- The numbers up to `ino` have been given; the inodes of all but those in `D` are written. -/
structure Numbered (D : Set ℕ) (s : St) : Prop where
  ratio : 2 * s.s_isize.toNat + 2 ≤ s.s_fsize.toNat
  blocks : ∀ x ∈ s.placed, x.2 = iblock x.1
  range : ∀ x ∈ s.placed, 1 ≤ x.1 ∧ x.1 ≤ s.ino
  pending : ∀ n ∈ D, 1 ≤ n ∧ n ≤ s.ino
  written : ∀ n, 1 ≤ n → n ≤ s.ino → n ∉ D → ∃ x ∈ s.placed, x.1 = n

/-- A state in which the program may have stopped. -/
def Stopped (s : St) : Prop := ∃ D, Numbered D s

variable {D : Set ℕ}

/-- The numbering depends on four fields. -/
theorem Numbered.congr {s s' : St} (h : Numbered D s) (hisize : s'.s_isize = s.s_isize)
    (hfsize : s'.s_fsize = s.s_fsize) (hplaced : s'.placed = s.placed) (hino : s'.ino = s.ino) :
    Numbered D s' := by
  obtain ⟨ratio, blocks, range, pending, written⟩ := h
  constructor
  · rwa [hisize, hfsize]
  · rwa [hplaced]
  · rwa [hplaced, hino]
  · rwa [hino]
  · rwa [hplaced, hino]

/-- What writes nothing numbers nothing. -/
theorem Numbered.noOutput {s s' : St} (h : Numbered D s) (hs : s'.noOutput = s.noOutput) :
    Numbered D s' :=
  h.congr (congrArg (·.s_isize) hs) (congrArg (·.s_fsize) hs) (congrArg (·.placed) hs)
    (congrArg (·.ino) hs)

/-- What only reads numbers nothing. -/
theorem Numbered.noInput {s s' : St} (h : Numbered D s) (hs : s'.noInput = s.noInput) :
    Numbered D s' :=
  h.congr (congrArg (·.s_isize) hs) (congrArg (·.s_fsize) hs) (congrArg (·.placed) hs)
    (congrArg (·.ino) hs)

section

variable {α γ : Type} {m : M α}

/-- A function that only makes blocks keeps the numbers. -/
theorem Ends.numbered (h : Ends St.noOutput m) :
    Triple (Numbered D) m (fun _ => Numbered D) Stopped :=
  (Triple.of_moves h.keeps fun _ _ hs hD => hD.noOutput hs).stop fun _ h => ⟨D, h⟩

/-- So does one that only reads. -/
theorem Keeps.numbered (h : Keeps St.noInput m) :
    Triple (Numbered D) m (fun _ => Numbered D) Stopped :=
  (Triple.of_moves h fun _ _ hs hD => hD.noInput hs).stop fun _ h => ⟨D, h⟩

end

/-- The next number is a new one. -/
theorem numbered_nextIno :
    Triple (Numbered D) nextIno (fun n s => Numbered (insert n D) s ∧ n ∉ D) Stopped := by
  have hmodify : Triple (Numbered D) (modify fun s => { s with ino := s.ino + 1 } : M Unit)
      (fun _ s => Numbered (insert s.ino D) s ∧ s.ino ∉ D) Stopped := by
    refine .modify fun s hs => ⟨⟨hs.ratio, hs.blocks, fun x hx => ?_, fun n hn => ?_,
      fun n h₁ h₂ hn => ?_⟩, fun h => absurd (hs.pending _ h).2 (Nat.not_succ_le_self s.ino)⟩
    · have := hs.range x hx
      exact ⟨this.1, by dsimp only; omega⟩
    · rcases Set.mem_insert_iff.mp hn with rfl | h
      · exact ⟨by dsimp only; omega, le_rfl⟩
      · have := hs.pending n h
        exact ⟨this.1, by dsimp only; omega⟩
    · have hne : n ≠ s.ino + 1 := fun h => hn (h ▸ Set.mem_insert _ _)
      have hle : n ≤ s.ino + 1 := h₂
      exact hs.written n h₁ (by omega) fun h => hn (Set.mem_insert_of_mem _ h)
  refine hmodify.bind fun _ =>
    (Triple.get (Q := fun a s => Numbered (insert a.ino D) s ∧ a.ino ∉ D) fun s hs => hs).bind ?_
  exact fun a => .ite (fun _ => .throw fun s hs => ⟨_, hs.1⟩) fun _ => .pure fun s hs => hs

/-- The inode numbered `n` is written. -/
theorem numbered_place {n : ℕ} {ip : Inode} (hip : ip.i_number = BitVec.ofNat 16 n) :
    Triple (Numbered (insert n D)) (place E n ip) (fun _ => Numbered D) Stopped := by
  refine .ite (fun _ => .throw fun s hs => ⟨_, hs⟩) fun _ => ?_
  refine (ends_rdfs _).numbered.bind fun _ => ?_
  refine Triple.bind (Q := fun _ => Numbered D) (.modify fun s hs => ?_) fun _ =>
    Triple.get_self.bind fun _ => (ends_wtfs _ _).numbered
  refine ⟨hs.ratio, fun x hx => ?_, fun x hx => ?_, fun k hk => ?_, fun k h₁ h₂ hk => ?_⟩
  · rcases List.mem_cons.mp hx with rfl | h
    · unfold iblock
      rw [← hip]
    · exact hs.blocks x h
  · rcases List.mem_cons.mp hx with rfl | h
    · exact hs.pending n (Set.mem_insert _ _)
    · exact hs.range x h
  · exact hs.pending k (Set.mem_insert_of_mem _ hk)
  · by_cases hkn : k = n
    · exact ⟨_, List.mem_cons_self, hkn.symm⟩
    · obtain ⟨x, hx, rfl⟩ := hs.written k h₁ h₂ fun h => (Set.mem_insert_iff.mp h).elim hkn hk
      exact ⟨x, List.mem_cons_of_mem _ hx, rfl⟩

/-- A regular file is numbered. -/
theorem numbered_regular {n : ℕ} {ip : Inode} (hip : ip.i_number = BitVec.ofNat 16 n) (fuel : ℕ) :
    Triple (Numbered (insert n D)) (regular E fuel n ip) (fun _ => Numbered D) Stopped := by
  refine (keeps_getstr fuel).numbered.bind fun _ => Triple.get_self.bind fun s => ?_
  cases E.files s.string with
  | none =>
    refine ((ends_addresses _ _).numbered.and (i_number_addresses _ _)).bind fun ip' => ?_
    exact .given fun hip' => numbered_place (hip'.trans hip)
  | some cs =>
    refine ((ends_copyBlocks _ ip {}).numbered.and (i_number_copyBlocks _ ip {})).bind fun r => ?_
    refine .given fun hr => ?_
    refine ((ends_addresses _ _).numbered.and (i_number_addresses _ _)).bind fun ip' => ?_
    refine .given fun hip' => (numbered_place (hip'.trans (hr.trans hip))).bind fun _ => ?_
    exact .modify fun s hs => hs.congr rfl rfl rfl rfl

theorem treeInv_numbered : TreeInv E Numbered Stopped where
  stop D _ hs := ⟨D, hs⟩
  noInput _ _ _ hs hD := hD.noInput hs
  entry _ ino str b := (ends_entry ino str b).numbered
  addresses _ ip b := (ends_addresses ip b).numbered
  nextIno _ := numbered_nextIno
  place _ _ _ _ hip := numbered_place hip
  regular _ fuel _ _ _ hbare := numbered_regular hbare.number fuel

/-! ## The program -/

/-- No number has been given. -/
def Fresh (s : St) : Prop := s.placed = [] ∧ s.ino = 0

/-- What only reads leaves a fresh state. -/
theorem Keeps.fresh {α : Type} {m : M α} (h : Keeps St.noInput m) :
    Triple Fresh m (fun _ => Fresh) Fresh :=
  .of_moves h fun _ _ hs hfresh =>
    ⟨(congrArg (·.placed) hs).trans hfresh.1, (congrArg (·.ino) hs).trans hfresh.2⟩

theorem fresh_boot (fuel : ℕ) : Triple Fresh (boot E fuel) (fun _ => Fresh) Fresh := by
  refine (keeps_getstr fuel).fresh.bind fun _ => ?_
  refine Triple.get_self.bind fun s => ?_
  cases E.files s.string with
  | none => exact .pure fun s hs => hs
  | some cs =>
    refine Triple.bind (Q := fun _ => Fresh) (.modify fun s hs => hs) fun _ => ?_
    exact Triple.get_self.bind fun s => .modify fun s hs => hs

/-- The ratio of the sizes is checked. -/
theorem numbered_sizes (fuel : ℕ) :
    Triple Fresh (sizes E fuel) (fun _ => Numbered ∅) Fresh := by
  refine (keeps_getnum fuel).fresh.bind fun s_fsize => ?_
  refine (keeps_getnum fuel).fresh.bind fun s_isize => (keeps_getnum fuel).fresh.bind fun swap => ?_
  refine Triple.bind (Q := fun _ s => Fresh s ∧ s.s_fsize = s_fsize ∧ s.s_isize = s_isize)
    (.modify fun s hs => ⟨hs, rfl, rfl⟩) fun _ => .ite (fun _ => .throw fun s hs => hs.1) ?_
  refine fun hratio => .pure ?_
  rintro s ⟨⟨hplaced, hino⟩, rfl, rfl⟩
  rw [not_or] at hratio
  refine ⟨by omega, ?_, ?_, nofun, ?_⟩
  · rw [hplaced]
    nofun
  · rw [hplaced]
    nofun
  · intro n h₁ h₂
    omega

/-- A run numbers all its files. -/
theorem numbered_main (fsys : List Byte) (fuel : ℕ) :
    Triple Fresh (main E fsys fuel) (fun _ => Numbered ∅) fun s => Fresh s ∨ Stopped s := by
  refine ((fresh_boot fuel).stop fun _ h => .inl h).bind fun _ => ?_
  refine ((numbered_sizes fuel).stop fun _ h => .inl h).bind fun _ => ?_
  refine Triple.stop (S := Stopped) ((ends_bflist _ _).numbered.bind fun _ => ?_) fun _ h => .inr h
  have hbuf : Ends St.noOutput (modify fun s => { s with buf := Block.zero } : M Unit) :=
    .modify fun _ => rfl
  refine hbuf.numbered.bind fun _ => ?_
  refine Triple.get_self.bind fun s => ?_
  refine (ends_each (fun _ => ends_wtfs _ _) _).numbered.bind fun _ => ?_
  refine (ends_wtfs _ _).numbered.bind fun _ => ?_
  refine (treeInv_numbered.cfile fuel ∅ none).bind fun _ => ?_
  refine .given fun _ => hbuf.numbered.bind fun _ => ?_
  exact Triple.get_self.bind fun s => (ends_wtfs _ _).numbered

/-! ## Where they lie -/

/-- The block lies among those of the inodes, and `bflist` has not freed it: it is no block of data,
of addresses or of the free list. -/
structure InArea (fsys : List Byte) (s : St) (b : ℤ) : Prop where
  area : 2 ≤ b ∧ b ≤ s.s_isize.toNat + 1
  apart : ∀ b' ∈ freeOrder (rotation fsys (1, 1)).1 (rotation fsys (1, 1)).2 s.s_fsize s.s_isize,
    b ≠ short b'

/-- An inode is in its area if its number fits. -/
theorem inArea_iff (fsys : List Byte) {s : St} (hs : Numbered D s) {x : ℕ × ℤ} (hx : x ∈ s.placed) :
    InArea fsys s x.2 ↔ Fits s.s_isize x.1 := by
  rw [← iblock_area_iff, hs.blocks x hx]
  refine ⟨fun h => h.area, fun h => ⟨h, fun b' hb' => ?_⟩⟩
  obtain ⟨hlow, hhigh⟩ := freeOrder_bounds (rotation_pos fsys (by decide)) _ _ _ b' hb'
  have hratio := hs.ratio
  have hfsize := s.s_fsize.isLt
  have hlow' : s.s_isize.toNat + 2 ≤ b' := by
    have htwo : (2 : BitVec 16).toNat = 2 := rfl
    rwa [BitVec.toNat_add, htwo, Nat.mod_eq_of_lt (by omega)] at hlow
  have hb := (s.s_fsize - 1).isLt
  -- a block number from 32768 on is a negative `int`
  unfold short Int.bmod
  dsimp only
  split <;> omega

/-- Every inode that has been written lies where it should. -/
def AllInArea (fsys : List Byte) (s : St) : Prop := ∀ x ∈ s.placed, InArea fsys s x.2

/-- When all numbers are used, the numbers that fit are those up to a bound. -/
theorem Numbered.allInArea_of_ino (fsys : List Byte) {s : St} (hs : Numbered ∅ s) :
    AllInArea fsys s ↔ s.ino ≤ min (16 * s.s_isize.toNat) 32736 := by
  constructor
  · intro h
    by_contra hle
    -- the first number behind the bound does not fit
    obtain ⟨x, hx, hn⟩ := hs.written (min (16 * s.s_isize.toNat) 32736 + 1) (by omega) (by omega)
      (Set.notMem_empty _)
    have hfits := (inArea_iff fsys hs hx).mp (h x hx)
    rw [hn] at hfits
    unfold Fits at hfits
    omega
  · intro hle x hx
    obtain ⟨h₁, h₂⟩ := hs.range x hx
    refine (inArea_iff fsys hs hx).mpr ?_
    unfold Fits
    omega

/-- The inodes that have been written lie where they should, if and only if their numbers fit. When
the image is complete, these are all numbers up to `ino`. -/
theorem allInArea_iff (E : Env) (fsys proto : List Byte) (fuel : ℕ) :
    (AllInArea fsys (run E fsys proto fuel).state ↔
      ∀ x ∈ (run E fsys proto fuel).state.placed, Fits (run E fsys proto fuel).state.s_isize x.1) ∧
    ∀ s, run E fsys proto fuel = .ok () s →
      (AllInArea fsys s ↔ s.ino ≤ min (16 * s.s_isize.toNat) 32736) := by
  obtain ⟨hok, herror⟩ := numbered_main (E := E) fsys fuel (start proto) ⟨rfl, rfl⟩
  have hany : ∀ {D s}, Numbered D s → (AllInArea fsys s ↔ ∀ x ∈ s.placed, Fits s.s_isize x.1) :=
    fun hs => forall₂_congr fun x hx => inArea_iff fsys hs hx
  refine ⟨?_, fun s hs => (hok () s hs).allInArea_of_ino fsys⟩
  cases hr : run E fsys proto fuel with
  | ok a s => exact hany (hok a s hr)
  | error e s =>
    rcases herror e s hr with ⟨hplaced, -⟩ | ⟨D, hs⟩
    · unfold AllInArea
      rw [EStateM.Result.state_error, hplaced]
      exact ⟨fun _ => nofun, fun _ => nofun⟩
    · exact hany hs

/-- One block has a place for 16 inodes. The proto file describes 17 files, the root directory and
16 files that cannot be opened; the last inode goes to the first block behind the inodes. -/
theorem seventeenth_inode :
    ∃ s, run { files := fun _ => none, eof := fun _ => 0, lseek := fun pos _ => pos } []
        ([98, 32, 57, 32, 49, 32, 48, 32, 100, 45, 45, 55, 55, 55, 32, 48, 32, 48, 32] ++
          (List.replicate 16
            [97, 32, 45, 45, 45, 54, 52, 52, 32, 48, 32, 48, 32, 120, 32]).flatten ++
          [36, 32]) 300 = .ok () s ∧ ¬AllInArea [] s := by
  have hrun : (run { files := fun _ => none, eof := fun _ => 0, lseek := fun pos _ => pos } []
      ([98, 32, 57, 32, 49, 32, 48, 32, 100, 45, 45, 55, 55, 55, 32, 48, 32, 48, 32] ++
        (List.replicate 16 [97, 32, 45, 45, 45, 54, 52, 52, 32, 48, 32, 48, 32, 120, 32]).flatten ++
        [36, 32]) 300).okWith (fun _ s => (17, 3) ∈ s.placed ∧ s.s_isize = 1) = true := by
    decide +kernel
  obtain ⟨⟨⟩, s, hs, htest⟩ := EStateM.Result.exists_of_okWith hrun
  obtain ⟨hmem, hisize⟩ := of_decide_eq_true htest
  refine ⟨s, hs, fun h => ?_⟩
  have harea := (h _ hmem).area.2
  rw [hisize] at harea
  exact absurd harea (by decide)

end UnixV6.Mkfs
