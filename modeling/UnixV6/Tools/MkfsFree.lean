import UnixV6.Tools.Mkfs

/-!
# The order in which `bflist` frees the blocks

From the last block down, in three stretches: single blocks down to the end of a cylinder, then
cylinder by cylinder in the order of `adr`, then single blocks again. Every stretch ends where the
next one begins, so that no block comes twice, and none lies below the inodes.
-/

namespace UnixV6.Mkfs

/-- The loop finds an address within the group. -/
theorem unflagged_lt {f_n : ℕ} (hf : 0 < f_n) (flg : List Bool) (turns : ℕ) {i : ℕ} (hi : i < f_n) :
    unflagged f_n flg turns i < f_n := by
  induction turns generalizing i with
  | zero => exact hi
  | succ turns ih =>
    unfold unflagged
    split
    · exact ih (Nat.mod_lt _ hf)
    · exact hi

/-- The addresses of a group are within it. -/
theorem interleave_lt {f_n : ℕ} (hf : 0 < f_n) (f_m j : ℕ) (flg : List Bool) {i : ℕ}
    (hi : i < f_n) : ∀ a ∈ interleave f_n f_m j flg i, a < f_n := by
  induction j generalizing flg i with
  | zero => nofun
  | succ j ih =>
    intro a ha
    rcases List.mem_cons.mp ha with rfl | h
    · exact unflagged_lt hf flg f_n hi
    · exact ih _ (Nat.mod_lt _ hf) a h

/-- The blocks above the groups lie between the bounds. -/
theorem topBlocks_bounds (f_n low i : ℕ) :
    (∀ b ∈ (topBlocks f_n low i).1, low ≤ b ∧ (topBlocks f_n low i).2 < b ∧ b ≤ i) ∧
      (topBlocks f_n low i).2 ≤ i := by
  induction i with
  | zero => exact ⟨nofun, le_rfl⟩
  | succ i ih =>
    unfold topBlocks
    split
    · exact ⟨nofun, le_rfl⟩
    · obtain ⟨hb, hlast⟩ := ih
      refine ⟨fun b hmem => ?_, by dsimp only; omega⟩
      rcases List.mem_cons.mp hmem with rfl | h
      · dsimp only
        omega
      · obtain ⟨h₁, h₂, h₃⟩ := hb b h
        exact ⟨h₁, h₂, by omega⟩

/-- The blocks of the groups lie between the bounds. -/
theorem groupBlocks_bounds {f_n : ℕ} (low : ℕ) {adr : List ℕ} (hadr : ∀ a ∈ adr, a < f_n)
    (turns i : ℕ) :
    (∀ b ∈ (groupBlocks f_n low adr turns i).1,
      low ≤ b ∧ (groupBlocks f_n low adr turns i).2 < b ∧ b ≤ i) ∧
      (groupBlocks f_n low adr turns i).2 ≤ i := by
  induction turns generalizing i with
  | zero => exact ⟨nofun, le_rfl⟩
  | succ turns ih =>
    unfold groupBlocks
    split
    · obtain ⟨hb, hlast⟩ := ih (i - f_n)
      refine ⟨fun b hmem => ?_, by dsimp only; omega⟩
      rcases List.mem_append.mp hmem with h | h
      · obtain ⟨a, ha, rfl⟩ := List.mem_map.mp h
        have := hadr a ha
        dsimp only
        omega
      · obtain ⟨h₁, h₂, h₃⟩ := hb b h
        exact ⟨h₁, h₂, by omega⟩
    · exact ⟨nofun, le_rfl⟩

theorem mem_restBlocks {low i b : ℕ} (h : b ∈ restBlocks low i) : low ≤ b ∧ b ≤ i := by
  unfold restBlocks at h
  rw [List.mem_reverse, List.mem_range'_1] at h
  omega

/-- A rotation has at least one block. -/
theorem rotation_pos (fsys : List Byte) {r : ℕ × ℕ} (hr : 0 < r.1) : 0 < (rotation fsys r).1 := by
  induction fsys generalizing r with
  | nil => exact hr
  | cons c cs ih =>
    cases cs with
    | nil => exact hr
    | cons f cs =>
      unfold rotation
      split
      · exact ih (by decide)
      · split
        · exact ih (by decide)
        · exact ih hr

/-- The blocks are those between the inodes and the end. -/
theorem freeOrder_bounds {f_n : ℕ} (hf : 0 < f_n) (f_m : ℕ) (s_fsize s_isize : BitVec 16) :
    ∀ b ∈ freeOrder f_n f_m s_fsize s_isize,
      (s_isize + 2).toNat ≤ b ∧ b ≤ (s_fsize - 1).toNat := by
  intro b hb
  unfold freeOrder at hb
  extract_lets adr high low top groups at hb
  obtain ⟨htop, hlast⟩ := topBlocks_bounds f_n low high
  have hadr : ∀ a ∈ adr, a < f_n := interleave_lt hf f_m f_n _ hf
  obtain ⟨hgroups, hlast'⟩ := groupBlocks_bounds low hadr top.2 top.2
  rcases List.mem_append.mp hb with h | h
  · rcases List.mem_append.mp h with h | h
    · obtain ⟨h₁, h₂, h₃⟩ := htop b h
      exact ⟨h₁, h₃⟩
    · obtain ⟨h₁, h₂, h₃⟩ := hgroups b h
      exact ⟨h₁, h₃.trans hlast⟩
  · obtain ⟨h₁, h₂⟩ := mem_restBlocks h
    exact ⟨h₁, (h₂.trans hlast').trans hlast⟩

/-- The rotation is one of three. -/
theorem rotation_cases (fsys : List Byte) {r : ℕ × ℕ} (hr : r ∈ [(1, 1), (24, 3), (10, 4)]) :
    rotation fsys r ∈ [(1, 1), (24, 3), (10, 4)] := by
  induction fsys generalizing r with
  | nil => exact hr
  | cons c cs ih =>
    cases cs with
    | nil => exact hr
    | cons f cs =>
      unfold rotation
      split
      · exact ih (by decide)
      · split
        · exact ih (by decide)
        · exact ih hr

/-- On every kind of disk `adr` is a rearrangement of the blocks of a cylinder; 0 comes first. -/
theorem nodup_interleave {r : ℕ × ℕ} (hr : r ∈ [(1, 1), (24, 3), (10, 4)]) :
    (interleave r.1 r.2 r.1 (List.replicate r.1 false) 0).Nodup := by
  revert r
  decide

theorem nodup_topBlocks (f_n low i : ℕ) : (topBlocks f_n low i).1.Nodup := by
  induction i with
  | zero => exact List.nodup_nil
  | succ i ih =>
    unfold topBlocks
    split
    · exact List.nodup_nil
    · refine List.nodup_cons.mpr ⟨fun h => ?_, ih⟩
      have := ((topBlocks_bounds f_n low i).1 _ h).2.2
      omega

/-- No block of the groups is twice in the list. -/
theorem nodup_groupBlocks {f_n : ℕ} (low : ℕ) {adr : List ℕ} (hadr : ∀ a ∈ adr, a < f_n)
    (hnodup : adr.Nodup) (turns i : ℕ) : (groupBlocks f_n low adr turns i).1.Nodup := by
  induction turns generalizing i with
  | zero => exact List.nodup_nil
  | succ turns ih =>
    unfold groupBlocks
    split
    · next hle =>
      refine List.Nodup.append ?_ (ih _) fun b hb hb' => ?_
      · refine hnodup.map_on fun a ha a' ha' h => ?_
        have := hadr a ha
        have := hadr a' ha'
        omega
      · -- the next cylinder lies below this one
        obtain ⟨a, ha, rfl⟩ := List.mem_map.mp hb
        have := hadr a ha
        have := ((groupBlocks_bounds low hadr turns (i - f_n)).1 _ hb').2.2
        omega
    · exact List.nodup_nil

/-- No block is freed twice. -/
theorem nodup_freeOrder {r : ℕ × ℕ} (hr : r ∈ [(1, 1), (24, 3), (10, 4)]) (hpos : 0 < r.1)
    (s_fsize s_isize : BitVec 16) : (freeOrder r.1 r.2 s_fsize s_isize).Nodup := by
  unfold freeOrder
  extract_lets adr high low top groups
  have hadr : ∀ a ∈ adr, a < r.1 := interleave_lt hpos r.2 r.1 _ hpos
  obtain ⟨htop, hlast⟩ := topBlocks_bounds r.1 low high
  obtain ⟨hgroups, hlast'⟩ := groupBlocks_bounds low hadr top.2 top.2
  refine List.Nodup.append (List.Nodup.append (nodup_topBlocks _ _ _) ?_ ?_) ?_ ?_
  · exact nodup_groupBlocks low hadr (nodup_interleave hr) _ _
  · intro b hb hb'
    have h₁ := (htop b hb).2.1
    have h₂ := (hgroups b hb').2.2
    exact absurd h₂ (not_le.mpr h₁)
  · exact List.nodup_reverse.mpr List.nodup_range'
  · intro b hb hb'
    have h₂ := (mem_restBlocks hb').2
    rcases List.mem_append.mp hb with h | h
    · have h₁ := (htop b h).2.1
      exact absurd (h₂.trans hlast') (not_le.mpr h₁)
    · exact absurd h₂ (not_le.mpr (hgroups b h).2.1)

/-- A list of blocks down from `i`, which may also be empty. -/
def Leads (L : List ℕ) (i : ℕ) : Prop := L = [] ∨ ∃ rest, L = i :: rest

/-- The list begins with the last block above the groups. -/
theorem leads_topBlocks (f_n low i : ℕ) :
    Leads (topBlocks f_n low i).1 i ∧
      ((topBlocks f_n low i).1 = [] → (topBlocks f_n low i).2 = i) := by
  cases i with
  | zero => exact ⟨.inl rfl, fun _ => rfl⟩
  | succ i =>
    unfold topBlocks
    split
    · exact ⟨.inl rfl, fun _ => rfl⟩
    · exact ⟨.inr ⟨_, rfl⟩, nofun⟩

/-- The list begins with the last block of the groups. -/
theorem leads_groupBlocks (f_n low : ℕ) (adr : List ℕ) (turns i : ℕ) :
    Leads (groupBlocks f_n low (0 :: adr) turns i).1 i ∧
      ((groupBlocks f_n low (0 :: adr) turns i).1 = [] →
        (groupBlocks f_n low (0 :: adr) turns i).2 = i) := by
  cases turns with
  | zero => exact ⟨.inl rfl, fun _ => rfl⟩
  | succ turns =>
    unfold groupBlocks
    split
    · exact ⟨.inr ⟨_, rfl⟩, nofun⟩
    · exact ⟨.inl rfl, fun _ => rfl⟩

theorem leads_restBlocks (low i : ℕ) : Leads (restBlocks low i) i := by
  unfold restBlocks
  rcases Nat.eq_zero_or_pos (i + 1 - low) with hzero | hpos
  · rw [hzero]
    exact .inl rfl
  · obtain ⟨n, hn⟩ := Nat.exists_eq_add_of_lt hpos
    rw [Nat.zero_add] at hn
    have hlast : low + n = i := by omega
    rw [hn, List.range'_concat, List.reverse_append, Nat.one_mul, hlast]
    exact .inr ⟨_, rfl⟩

/-- Two pieces of the list, of which the first leads to the second. -/
theorem Leads.append {L L' : List ℕ} {i j : ℕ} (h : Leads L i) (h' : Leads L' j)
    (hj : L = [] → j = i) : Leads (L ++ L') i := by
  rcases h with rfl | ⟨rest, rfl⟩
  · rw [← hj rfl]
    exact h'
  · exact .inr ⟨rest ++ L', rfl⟩

/-- The last block of the file system is freed first. -/
theorem leads_freeOrder {f_n : ℕ} (hf : 0 < f_n) (f_m : ℕ) (s_fsize s_isize : BitVec 16) :
    Leads (freeOrder f_n f_m s_fsize s_isize) (s_fsize - 1).toNat := by
  obtain ⟨k, rfl⟩ := Nat.exists_eq_succ_of_ne_zero hf.ne'
  unfold freeOrder interleave
  extract_lets i adr high low top groups
  have hzero : i = 0 := by
    simp [i, unflagged]
  have hadr : adr = 0 :: interleave (k + 1) f_m k
      ((List.replicate (k + 1) false).set i true) ((i + f_m) % (k + 1)) := by
    rw [← hzero]
  have htop := leads_topBlocks (k + 1) low high
  have hgroups : Leads groups.1 top.2 ∧ (groups.1 = [] → groups.2 = top.2) := by
    unfold groups
    rw [hadr]
    exact leads_groupBlocks _ _ _ _ _
  refine (htop.1.append hgroups.1 htop.2).append (leads_restBlocks low groups.2) fun hnil => ?_
  obtain ⟨h₁, h₂⟩ := List.append_eq_nil_iff.mp hnil
  exact (hgroups.2 h₂).trans (htop.2 h₁)

end UnixV6.Mkfs
