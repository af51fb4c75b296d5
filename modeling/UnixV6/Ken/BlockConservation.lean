import UnixV6.Ken.Itrunc

/-!
# The blocks of a device

Every block between the i-list and the end of the device is in exactly one place: on the free list, or
in the tree of one inode. `bmap` and `itrunc` keep this, for whatever inodes they are called.
-/

open Function

namespace UnixV6

variable {ι : Type*} [DecidableEq ι]

/-- The inodes of a device and what they share. -/
structure Vol (ι : Type*) where
  /-- Whether the mode is `IFCHR` or `IFBLK`; the addresses are no block numbers then. -/
  special : ι → Bool
  ilarg : ι → Bool
  i_addr : ι → ℕ → BitVec 16
  i_size : ι → BitVec 24
  disk : BitVec 16 → Block
  free : List (BitVec 16)

/-- A place for a block. -/
inductive Place (ι : Type*)
  | free (n : ℕ)
  | tree (i : ι) (r : Node)

inductive VolOp (ι : Type*)
  /-- `bmap` finds or makes the block. -/
  | bmap (i : ι) (bn : ℕ)
  | itrunc (i : ι)

namespace Vol

def file (s : Vol ι) (i : ι) : FileDev := ⟨s.ilarg i, s.i_addr i, s.i_size i, s.disk, s.free⟩

def put (s : Vol ι) (i : ι) (f : FileDev) : Vol ι :=
  { s with
    ilarg := update s.ilarg i f.ilarg
    i_addr := update s.i_addr i f.i_addr
    i_size := update s.i_size i f.i_size
    disk := f.disk
    free := f.free }

/-- `itrunc`; devices are left alone. -/
def itrunc (fp : Super) (s : Vol ι) (i : ι) : Vol ι :=
  if s.special i then s else s.put i (fp.itrunc (s.file i))

/-- One operation. The kernel does not map blocks of devices, and only mappings with space are
operations here. -/
def step (fp : Super) (s : Vol ι) : VolOp ι → Option (Vol ι)
  | .bmap i bn =>
    if s.special i = false ∧ bn < 32768 ∧ ((s.file i).bmap bn).1 ≠ 0 then
      some (s.put i ((s.file i).bmap bn).2)
    else none
  | .itrunc i => some (s.itrunc fp i)

/-- The block in a place of the tree of an inode, or 0. -/
def node (s : Vol ι) (i : ι) (r : Node) : BitVec 16 :=
  if s.special i then 0 else (s.file i).node r

/-- The block in a place, or 0. -/
def held (s : Vol ι) : Place ι → BitVec 16
  | .free n => s.free.getD n 0
  | .tree i r => s.node i r

/-- Every block is in exactly one place, and there is nothing else in the places. -/
structure Partition (fp : Super) (s : Vol ι) : Prop where
  once : ∀ b, b ≠ 0 → fp.badblock b = false → ∃! p, s.held p = b
  range : ∀ p, s.held p ≠ 0 → fp.badblock (s.held p) = false
  zero : 0 ∉ s.free
  pad : ∀ b k, 512 ≤ k → s.disk b k = 0

/-! ## File by file -/

/-- The same, as facts about the files. -/
structure Split (fp : Super) (s : Vol ι) : Prop where
  inv : ∀ i, s.special i = false → (s.file i).Inv
  nodup : s.free.Nodup
  zero : 0 ∉ s.free
  apart : ∀ i j r r', s.node i r ≠ 0 → s.node i r = s.node j r' → i = j
  range_tree : ∀ i r, s.node i r ≠ 0 → fp.badblock (s.node i r) = false
  range_free : ∀ b ∈ s.free, fp.badblock b = false
  covers : ∀ b, b ≠ 0 → fp.badblock b = false → b ∈ s.free ∨ ∃ i r, s.node i r = b
  pad : ∀ b k, 512 ≤ k → s.disk b k = 0

variable {fp : Super} {s s' : Vol ι}

omit [DecidableEq ι] in
/-- The nodes of a file that is not special. -/
theorem node_of_not_special {i : ι} (hi : s.special i = false) (r : Node) :
    s.node i r = (s.file i).node r := if_neg (by simp [hi])

omit [DecidableEq ι] in
theorem held_free {n : ℕ} (hn : n < s.free.length) : s.held (.free n) = s.free[n] :=
  List.getD_eq_getElem _ _ hn

omit [DecidableEq ι] in
/-- No block is in two places. -/
theorem Partition.inj (h : s.Partition fp) {p q : Place ι} (hp : s.held p ≠ 0)
    (heq : s.held p = s.held q) : p = q :=
  (h.once _ hp (h.range p hp)).unique rfl heq.symm

omit [DecidableEq ι] in
theorem Partition.split (h : s.Partition fp) : s.Split fp := by
  have hfree0 : ∀ n (hn : n < s.free.length), s.free[n] ≠ 0 := fun n hn h0 =>
    h.zero (h0 ▸ List.getElem_mem hn)
  -- no block twice in the free list
  have hnodup : s.free.Nodup := by
    refine List.nodup_iff_injective_getElem.mpr fun ⟨n, hn⟩ ⟨m, hm⟩ heq => ?_
    have hheld : s.held (.free n) = s.held (.free m) := by
      rw [held_free hn, held_free hm]
      exact heq
    have hsame := h.inj (held_free hn ▸ hfree0 n hn) hheld
    simpa using hsame
  refine ⟨fun i hi => ⟨fun r r' h0 heq => ?_, hnodup, h.zero, fun r hr => ?_⟩, hnodup, h.zero,
    fun i j r r' h0 heq => ?_, fun i r => h.range (.tree i r), fun b hb => ?_, fun b h0 hb => ?_,
    h.pad⟩
  · rw [← node_of_not_special hi, ← node_of_not_special hi] at heq
    rw [← node_of_not_special hi] at h0
    have hsame := h.inj (p := .tree i r) (q := .tree i r') h0 heq
    simpa using hsame
  · obtain ⟨n, hn, heq⟩ := List.getElem_of_mem hr
    have hheld : s.held (.free n) = s.held (.tree i r) := by
      rw [held_free hn]
      exact heq.trans (node_of_not_special hi r).symm
    have hsame := h.inj (held_free hn ▸ hfree0 n hn) hheld
    cases hsame
  · have hsame := h.inj (p := .tree i r) (q := .tree j r') h0 heq
    simp only [Place.tree.injEq] at hsame
    exact hsame.1
  · obtain ⟨n, hn, rfl⟩ := List.getElem_of_mem hb
    rw [← held_free hn]
    exact h.range _ (held_free hn ▸ hfree0 n hn)
  · -- each block of the area is somewhere
    obtain ⟨p, hp, -⟩ := h.once b h0 hb
    cases p with
    | free n =>
      have hn : n < s.free.length := by
        by_contra hge
        have hnone : s.held (.free n) = 0 := List.getD_eq_default _ _ (not_lt.mp hge)
        exact h0 (hp.symm.trans hnone)
      exact .inl (hp ▸ held_free hn ▸ List.getElem_mem hn)
    | tree i r => exact .inr ⟨i, r, hp⟩

omit [DecidableEq ι] in
/-- No block is in two places of a split volume. -/
theorem Split.held_inj (h : s.Split fp) {p q : Place ι} (hp : s.held p ≠ 0)
    (heq : s.held p = s.held q) : p = q := by
  have hlt : ∀ n, s.held (.free n) ≠ 0 → n < s.free.length := by
    intro n h0
    by_contra hge
    exact h0 (List.getD_eq_default _ _ (not_lt.mp hge))
  have hspecial : ∀ i r, s.node i r ≠ 0 → s.special i = false := by
    intro i r h0
    by_contra hi
    exact h0 (if_pos (by simpa using hi))
  -- The free list and a tree have no block in common.
  have hfresh : ∀ n i r, s.held (.free n) ≠ 0 → s.held (.free n) ≠ s.node i r := by
    intro n i r h0 heq
    have hi := hspecial i r (heq ▸ h0)
    refine (h.inv i hi).fresh r ?_
    rw [← node_of_not_special hi, ← heq, held_free (hlt n h0)]
    exact List.getElem_mem _
  cases p with
  | free n =>
    cases q with
    | free m =>
      have hm := hlt m (heq ▸ hp)
      rw [held_free (hlt n hp), held_free hm] at heq
      rw [(h.nodup.getElem_inj_iff).mp heq]
    | tree j r' => exact absurd heq (hfresh n j r' hp)
  | tree i r =>
    cases q with
    | free m => exact absurd heq.symm (hfresh m i r (heq ▸ hp))
    | tree j r' =>
      obtain rfl := h.apart i j r r' hp heq
      have hi := hspecial i r hp
      have hp : s.node i r ≠ 0 := hp
      have heq : s.node i r = s.node i r' := heq
      rw [node_of_not_special hi] at hp
      rw [node_of_not_special hi, node_of_not_special hi] at heq
      rw [(h.inv i hi).distinct r r' hp heq]

omit [DecidableEq ι] in
theorem Split.partition (h : s.Split fp) : s.Partition fp := by
  refine ⟨fun b h0 hb => ?_, fun p hp => ?_, h.zero, h.pad⟩
  · have hex : ∃ p, s.held p = b := by
      rcases h.covers b h0 hb with hmem | ⟨i, r, hr⟩
      · obtain ⟨n, hn, rfl⟩ := List.getElem_of_mem hmem
        exact ⟨.free n, held_free hn⟩
      · exact ⟨.tree i r, hr⟩
    obtain ⟨p, rfl⟩ := hex
    exact ⟨p, rfl, fun q hq => (h.held_inj h0 hq.symm).symm⟩
  · cases p with
    | free n =>
      have hn : n < s.free.length := by
        by_contra hge
        exact hp (List.getD_eq_default _ _ (not_lt.mp hge))
      rw [held_free hn]
      exact h.range_free _ (List.getElem_mem hn)
    | tree i r => exact h.range_tree i r hp

/-! ## One file changes -/

omit [DecidableEq ι] in
/-- Only files that are not special have blocks. -/
theorem Split.special_of_node {i : ι} {r : Node} (h0 : s.node i r ≠ 0) : s.special i = false := by
  by_contra hi
  exact h0 (if_pos (by simpa using hi))

@[simp] theorem put_file_self (s : Vol ι) (i : ι) (f : FileDev) : (s.put i f).file i = f := by
  simp [put, file]

/-- The other files see the same disk and free list. -/
theorem put_file_of_ne {i j : ι} (hj : j ≠ i) (f : FileDev) :
    (s.put i f).file j = { s.file j with disk := f.disk, free := f.free } := by
  simp [put, file, hj]

/-- The blocks of the other trees are not written. -/
theorem Split.node_put_of_ne (h : s.Split fp) {i j : ι} (hi : s.special i = false) (hj : j ≠ i)
    {f : FileDev} (hf : FileDev.Grows (s.file i) f) (r : Node) :
    (s.put i f).node j r = s.node j r := by
  have hspecial : (s.put i f).special = s.special := rfl
  unfold node
  rw [hspecial]
  split
  · rfl
  · next hsp =>
    have hsp : s.special j = false := by simpa using hsp
    refine congrFun (IsTree.unique (FileDev.isTree _) ?_) r
    rw [put_file_of_ne hj]
    refine (s.file j).isTree.congr fun r' q k _ h0 => ?_
    -- A block of the other file is not free, and not in this file.
    have hdisk : f.disk ((s.file j).node q) = (s.file j).disk ((s.file j).node q) := by
      refine hf.disk _ h0 ((h.inv j hsp).fresh q) fun r'' heq => hj ?_
      rw [← node_of_not_special hsp, ← node_of_not_special hi] at heq
      refine (h.apart i j r'' q ?_ heq).symm
      rw [heq, node_of_not_special hsp]
      exact h0
    exact congrFun (congrArg Block.word hdisk) k

/-- What one file and the free list exchange leaves the device in order. -/
theorem Split.put (h : s.Split fp) {i : ι} (hi : s.special i = false) {f : FileDev} (hinv : f.Inv)
    (hf : FileDev.Grows (s.file i) f) (hpad : f.PadZero) : (s.put i f).Split fp := by
  have hself : ∀ r, (s.put i f).node i r = f.node r := by
    intro r
    rw [node_of_not_special (s := s.put i f) hi, put_file_self]
  have hother := fun {j} (hj : j ≠ i) => h.node_put_of_ne hi hj hf
  have hplaces : ∀ c, c ≠ 0 → ((c ∈ f.free ∨ ∃ r, f.node r = c) ↔
      (c ∈ s.free ∨ ∃ r, s.node i r = c)) := by
    intro c h0
    rw [hf.places c h0]
    simp only [node_of_not_special hi]
    rfl
  -- The blocks of another file are in no place that the two exchange.
  have haway : ∀ {j r}, j ≠ i → s.node j r ≠ 0 →
      ¬ (s.node j r ∈ f.free ∨ ∃ r', f.node r' = s.node j r) := by
    intro j r hj h0 hmem
    have hsp := Split.special_of_node h0
    rcases (hplaces _ h0).mp hmem with hfree | ⟨r', hr'⟩
    · rw [node_of_not_special hsp] at hfree
      exact (h.inv j hsp).fresh r hfree
    · exact hj (h.apart i j r' r (hr' ▸ h0) hr').symm
  have hok : ∀ c, c ≠ 0 → (c ∈ f.free ∨ ∃ r, f.node r = c) → fp.badblock c = false := by
    intro c h0 hc
    rcases (hplaces c h0).mp hc with hfree | ⟨r, rfl⟩
    · exact h.range_free c hfree
    · exact h.range_tree i r h0
  refine ⟨fun j hj => ?_, hinv.nodup, hinv.zero, fun j j' r r' h0 heq => ?_, fun j r h0 => ?_,
    fun b hb => ?_, fun b h0 hb => ?_, hpad⟩
  · rcases eq_or_ne j i with rfl | hji
    · rw [put_file_self]
      exact hinv
    · have hold : s.special j = false := hj
      have hnode : ∀ r, ((s.put i f).file j).node r = s.node j r := by
        intro r
        rw [← node_of_not_special hj, hother hji]
      refine ⟨fun r r' h0 heq => ?_, hinv.nodup, hinv.zero, fun r hr => ?_⟩
      · rw [hnode, node_of_not_special hold] at h0 heq
        rw [hnode, node_of_not_special hold] at heq
        exact (h.inv j hold).distinct r r' h0 heq
      · rw [hnode] at hr
        have hr : s.node j r ∈ f.free := hr
        refine haway hji (fun h0 => hinv.zero (h0 ▸ hr)) (.inl hr)
  · by_contra hne
    rcases eq_or_ne j i with rfl | hj
    · have hj' : j' ≠ j := fun hsame => hne hsame.symm
      rw [hself] at h0 heq
      rw [hother hj'] at heq
      exact haway hj' (heq ▸ h0) (.inr ⟨r, heq⟩)
    · rw [hother hj] at h0 heq
      rcases eq_or_ne j' i with rfl | hj'
      · rw [hself] at heq
        exact haway hj h0 (.inr ⟨r', heq.symm⟩)
      · rw [hother hj'] at heq
        exact hne (h.apart j j' r r' h0 heq)
  · rcases eq_or_ne j i with rfl | hj
    · rw [hself] at h0 ⊢
      exact hok _ h0 (.inr ⟨r, rfl⟩)
    · rw [hother hj] at h0 ⊢
      exact h.range_tree j r h0
  · exact hok b (fun h0 => hinv.zero (h0 ▸ hb)) (.inl hb)
  · have hmine : (b ∈ s.free ∨ ∃ r, s.node i r = b) →
        b ∈ (s.put i f).free ∨ ∃ j r, (s.put i f).node j r = b := by
      intro hb
      rcases (hplaces b h0).mpr hb with hfree | ⟨r, hr⟩
      · exact .inl hfree
      · exact .inr ⟨i, r, (hself r).trans hr⟩
    rcases h.covers b h0 hb with hfree | ⟨j, r, hr⟩
    · exact hmine (.inl hfree)
    · rcases eq_or_ne j i with rfl | hj
      · exact hmine (.inr ⟨r, hr⟩)
      · exact .inr ⟨j, r, (hother hj r).trans hr⟩

/-! ## The operations -/

/-- `itrunc` frees the blocks of one file. -/
theorem Split.itrunc (h : s.Split fp) {i : ι} (hi : s.special i = false) :
    FileDev.Truncated (s.file i) ((s.itrunc fp i).file i) ∧ (s.itrunc fp i).Split fp := by
  have hok : ∀ r, (s.file i).node r ≠ 0 → fp.badblock ((s.file i).node r) = false := by
    intro r
    rw [← node_of_not_special hi]
    exact h.range_tree i r
  obtain ⟨htrunc, hinv, hgrows, hpad⟩ := (h.inv i hi).itrunc h.pad hok
  rw [Vol.itrunc, if_neg (by simp [hi]), put_file_self]
  exact ⟨htrunc, h.put hi hinv hgrows hpad⟩

/-- Every step keeps the volume split. -/
theorem Split.step (h : s.Split fp) {o : VolOp ι} (hstep : s.step fp o = some s') :
    s'.Split fp := by
  cases o with
  | bmap i bn =>
    obtain ⟨⟨hi, hbn, hne⟩, hs⟩ := Option.ite_none_right_eq_some.mp hstep
    obtain rfl := Option.some.inj hs
    -- There was space.
    have hmapped := ((h.inv i hi).bmap hbn).2.resolve_right fun hfull => hne hfull.2
    have hpad : (s.file i).PadZero := h.pad
    exact h.put hi hmapped.inv hmapped.grows (hpad.bmap bn)
  | itrunc i =>
    obtain rfl := Option.some.inj hstep
    cases hi : s.special i with
    | true =>
      rw [Vol.itrunc, if_pos hi]
      exact h
    | false => exact (h.itrunc hi).2

/-- After any sequence of mappings and truncations every block is in exactly one place still, and a
truncation returns every block of its file once and no other, and leaves an empty file. -/
theorem partition_of_reachable {s₀ : Vol ι} (h₀ : s₀.Partition fp)
    (h : Reachable (step fp) (fun _ _ => True) s₀ s) : s.Partition fp ∧
      ∀ i, s.special i = false → FileDev.Truncated (s.file i) ((s.itrunc fp i).file i) := by
  have hsplit : s.Split fp :=
    h.invariant (P := fun s => s.Split fp) h₀.split fun s o s' hs _ hstep => hs.step hstep
  exact ⟨hsplit.partition, fun i hi => (hsplit.itrunc hi).1⟩

/-- A device of sixty blocks and two empty inodes. -/
def new : Vol Bool where
  special := fun _ => false
  ilarg := fun _ => false
  i_addr := fun _ _ => 0
  i_size := fun _ => 0
  disk := fun _ => Block.zero
  free := (List.range 60).map fun n => BitVec.ofNat 16 (n + 10)

/-- Its super block. The first block that is freed takes the list over. -/
def newSuper : Super where
  s_isize := 8
  s_fsize := 70
  full := fun n => n = 0
  junk := fun _ => Block.zero
  junk_pad := fun _ _ _ => rfl

/-- The blocks of the volume of the witness. -/
theorem newSuper_badblock {b : BitVec 16} :
    newSuper.badblock b = false ↔ 10 ≤ b.toNat ∧ b.toNat < 70 := by
  have hlow : (8 + 2 : BitVec 16).toInt = 10 := by decide
  have hhigh : (70 : BitVec 16).toInt = 70 := by decide
  have hcond := b.toInt_eq_toNat_cond
  have hlt := b.isLt
  simp only [Super.badblock, newSuper, Bool.or_eq_false_iff, BitVec.slt_eq_decide,
    BitVec.sle_eq_decide, hlow, hhigh, decide_eq_false_iff_not]
  omega

theorem mem_new_free {b : BitVec 16} : b ∈ new.free ↔ 10 ≤ b.toNat ∧ b.toNat < 70 := by
  simp only [new, List.mem_map, List.mem_range]
  constructor
  · rintro ⟨n, hn, rfl⟩
    rw [BitVec.toNat_ofNat, Nat.mod_eq_of_lt (by omega)]
    omega
  · rintro ⟨hlow, hhigh⟩
    refine ⟨b.toNat - 10, by omega, ?_⟩
    rw [Nat.sub_add_cancel hlow, BitVec.ofNat_toNat, BitVec.setWidth_eq]

theorem split_new : new.Split newSuper := by
  have hnode : ∀ i r, (new.file i).node r = 0 := by
    intro i r
    cases r <;> simp [FileDev.node, new, file]
  have hnode' : ∀ i r, new.node i r = 0 := fun i r => hnode i r
  have hnodup : new.free.Nodup := by decide
  have hzero : 0 ∉ new.free := by decide
  refine ⟨fun i _ => ⟨fun r r' hr => absurd (hnode i r) hr, hnodup, hzero, fun r => ?_⟩, hnodup,
    hzero, fun i j r r' h0 => absurd (hnode' i r) h0, fun i r h0 => absurd (hnode' i r) h0,
    fun b hb => newSuper_badblock.mpr (mem_new_free.mp hb),
    fun b _ hb => .inl (mem_new_free.mpr (newSuper_badblock.mp hb)), fun _ _ _ => rfl⟩
  rw [hnode]
  exact hzero

/-- A small file, a huge one, the small one made large, and the huge one truncated. -/
def mappings : List (VolOp Bool) :=
  [.bmap true 0, .bmap false 3000, .bmap true 9, .bmap false 3001, .itrunc false]

/-- Blocks are mapped, and a file is truncated. -/
theorem partition_of_reachable_mappings : ∃ s, runSteps (step newSuper) mappings new = some s ∧
    s.Partition newSuper ∧
    ∀ i, s.special i = false → FileDev.Truncated (s.file i) ((s.itrunc newSuper i).file i) := by
  have hsome : (runSteps (step newSuper) mappings new).isSome = true := by decide
  obtain ⟨s, hs⟩ := Option.isSome_iff_exists.mp hsome
  exact ⟨s, hs, partition_of_reachable split_new.partition (Reachable.refl.of_runSteps hs)⟩

end Vol

end UnixV6
