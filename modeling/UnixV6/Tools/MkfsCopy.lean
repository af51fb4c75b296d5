import UnixV6.Lib.Chunks
import UnixV6.Tools.MkfsStack
import UnixV6.Tools.MkfsTree

/-!
# What `mkfs` writes for a file

The pieces of a file go to blocks that are taken from the free list one after the other; their
numbers go into the inode, or from the ninth on into one more block. `Held` says that a file lies on
the image in this way.
-/

open Function

namespace UnixV6.Mkfs

variable {E : Env} {lo hi : ℕ} {st : List ℤ} {image : ℕ → Block}

/-- The blocks `bs` have been written with the pieces `css`. -/
structure Filled (image image' : ℕ → Block) (bs : List ℤ) (css : List (List Byte)) : Prop where
  length : bs.length = css.length
  rest : ∀ pos : ℕ, (pos : ℤ) ∉ bs → image' pos = image pos
  data : ∀ j < bs.length, image' (bs.getD j 0).toNat = store Block.zero 0 (css.getD j [])

/-- One more block is filled. -/
theorem Filled.cons {image image' : ℕ → Block} {b : ℤ} {bs : List ℤ} {cs : List Byte}
    {css : List (List Byte)} (hb : 0 ≤ b) (hbs : b ∉ bs)
    (h : Filled (update image b.toNat (store Block.zero 0 cs)) image' bs css) :
    Filled image image' (b :: bs) (cs :: css) := by
  refine ⟨congrArg (· + 1) h.length, fun pos hpos => ?_, fun j hj => ?_⟩
  · obtain ⟨hne, hpos⟩ := not_or.mp (List.mem_cons.not.mp hpos)
    rw [h.rest pos hpos, update_of_ne (by omega)]
  · cases j with
    | zero =>
      have hpos : ((b.toNat : ℕ) : ℤ) ∉ bs := by rwa [Int.toNat_of_nonneg hb]
      exact (h.rest b.toNat hpos).trans (update_self _ _ _)
    | succ j => exact h.data j (Nat.lt_of_succ_lt_succ hj)

/-- `newblk` takes a block from the free list and writes the buffer to it. -/
theorem newblk_spec (hlo : 0 < lo) (b : Blocks) :
    Triple (fun s => s.image = image ∧ Frees lo hi s st) (newblk E b)
      (fun b' s => ∃ bno st', Taken lo hi st bno st' ∧ s.image = update image bno.toNat b.db ∧
        Frees lo hi s st' ∧ b.ibc + 1 < 256 ∧
        b' = { ibc := b.ibc + 1, ib := b.ib.setWord b.ibc (BitVec.ofInt 16 bno) })
      fun _ => True :=
  alloc_wtfs hlo fun bno st' htaken => .ite (fun _ => .throw fun _ _ => trivial) fun hroom =>
    .pure fun _ ⟨himage, hs⟩ => ⟨bno, st', htaken, himage, hs, not_le.mp hroom, rfl⟩

/-- The pieces `css` have been copied to the blocks `bs`, from the place `k` of the addresses on. -/
structure Copied (lo hi : ℕ) (image : ℕ → Block) (st : List ℤ) (css : List (List Byte)) (ip : Inode)
    (k : ℕ) (ib : Block) (r : Inode × Blocks) (s : St) (bs st' : List ℤ) : Prop where
  split : st = bs ++ st'
  apart : ∀ b ∈ bs, b ∉ st'
  range : ∀ b ∈ bs, lo ≤ b ∧ b < hi
  filled : Filled image s.image bs css
  frees : Frees lo hi s st'
  count : k + bs.length < 256
  blocks : r.2.dbc = 0 ∧ r.2.ibc = k + bs.length
  addrs : ∀ j < bs.length, r.2.ib.word (k + j) = BitVec.ofInt 16 (bs.getD j 0)
  older : ∀ j < k, r.2.ib.word j = ib.word j
  inode : r.1 = { ip with i_size1 := ip.i_size1 + BitVec.ofNat 16 css.flatten.length }

/-- The copy loop fills one block for each piece of the file. -/
theorem copyBlocks_spec (hlo : 0 < lo) (css : List (List Byte)) (ip : Inode) {k : ℕ} (hk : k < 256)
    (ib : Block) :
    Triple (fun s => s.image = image ∧ Frees lo hi s st)
      (copyBlocks E css ip { ibc := k, ib := ib })
      (fun r s => ∃ bs st', Copied lo hi image st css ip k ib r s bs st') fun _ => True := by
  induction css generalizing image st ip k ib with
  | nil =>
    refine .pure fun s ⟨himage, hs⟩ => ⟨[], st, rfl, nofun, nofun,
      ⟨rfl, fun pos _ => ?_, nofun⟩, hs, hk, ⟨rfl, rfl⟩, nofun, fun _ _ => rfl, ?_⟩
    · rw [himage]
    · have hsize : ip.i_size1 + BitVec.ofNat 16 ([] : List (List Byte)).flatten.length =
          ip.i_size1 := BitVec.add_zero _
      rw [hsize]
  | cons cs css ih =>
    -- a block is taken for the first piece
    refine (newblk_spec hlo _).bind fun b' => .of_forall ?_
    rintro s ⟨bno, st₁, htaken, himage, hs, hroom, rfl⟩
    have hcopy : Triple (fun s₁ => s₁.image = s.image ∧ Frees lo hi s₁ st₁)
        (copyBlocks E css { ip with i_size1 := ip.i_size1 + BitVec.ofNat 16 cs.length }
          { ibc := k + 1, ib := ib.setWord k (BitVec.ofInt 16 bno) }) _ fun _ => True :=
      ih _ hroom _
    refine hcopy.imp ?_ ?_ fun _ h => h
    · rintro s₁ rfl
      exact ⟨rfl, hs⟩
    · rintro r s₁ ⟨bs, st', hcopied⟩
      have h : Copied lo hi s.image st₁ css { ip with
        i_size1 := ip.i_size1 + BitVec.ofNat 16 cs.length } (k + 1)
          (ib.setWord k (BitVec.ofInt 16 bno)) r s₁ bs st' := hcopied
      -- the blocks taken later are others
      have hbno : bno ∉ bs ∧ bno ∉ st' := by
        have hfresh := htaken.fresh
        rw [h.split, List.mem_append, not_or] at hfresh
        exact hfresh
      have hpos : 0 ≤ bno := (Int.natCast_nonneg lo).trans htaken.range.1
      refine ⟨bno :: bs, st', ?_, ?_, ?_, ?_, h.frees, ?_, ⟨h.blocks.1, ?_⟩, ?_, ?_, ?_⟩
      · rw [htaken.eq, h.split, List.cons_append]
      · intro b hb
        rcases List.mem_cons.mp hb with rfl | hb
        · exact hbno.2
        · exact h.apart b hb
      · intro b hb
        rcases List.mem_cons.mp hb with rfl | hb
        · exact htaken.range
        · exact h.range b hb
      · refine Filled.cons hpos hbno.1 ?_
        have hfilled := h.filled
        rwa [himage] at hfilled
      · have := h.count
        rw [List.length_cons]
        omega
      · rw [h.blocks.2, List.length_cons]
        omega
      · intro j hj
        cases j with
        | zero =>
          rw [Nat.add_zero, h.older k (Nat.lt_succ_self k), Block.word_setWord_self]
          rfl
        | succ j =>
          have haddr := h.addrs j (Nat.lt_of_succ_lt_succ hj)
          rwa [Nat.add_right_comm, Nat.add_assoc] at haddr
      · intro j hj
        rw [h.older j (by omega), Block.word_setWord_of_ne _ _ (by omega)]
      · rw [h.inode, List.flatten_cons, List.length_append, BitVec.ofNat_add, BitVec.add_assoc]

/-- The addresses stored: direct up to eight blocks, one indirect block beyond. -/
theorem addresses_spec (hlo : 0 < lo) (ip : Inode) {b : Blocks} (hdbc : b.dbc = 0) :
    Triple (fun s => s.image = image ∧ Frees lo hi s st) (addresses E ip b)
      (fun ip' s =>
        (b.ibc ≤ 8 ∧ s.image = image ∧ Frees lo hi s st ∧
          ip' = { ip with i_addr := fun k => if k.val < b.ibc then b.ib.word k else ip.i_addr k }) ∨
        (8 < b.ibc ∧ ∃ ind st', Taken lo hi st ind st' ∧ s.image = update image ind.toNat b.ib ∧
          Frees lo hi s st' ∧ ip' = { ip with
            i_mode := ip.i_mode ||| ILARG
            i_addr := update ip.i_addr 0 (BitVec.ofInt 16 ind) }))
      fun _ => True := by
  unfold addresses
  rw [if_neg (not_not.mpr hdbc), pure_bind]
  refine .ite (fun hlarge => ?_) fun hsmall => ?_
  · exact alloc_wtfs hlo fun ind st' htaken => .pure fun s hs =>
      .inr ⟨hlarge, ind, st', htaken, hs.1, hs.2, rfl⟩
  · exact .pure fun s hs => .inl ⟨not_lt.mp hsmall, hs.1, hs.2, rfl⟩

/-! ## A file on the image -/

/-- The bytes `cs` lie in the blocks `bs`, and the inode leads to them. -/
structure Held (lo hi : ℕ) (image : ℕ → Block) (st : List ℤ) (cs : List Byte) (d : Dinode)
    (bs : List ℤ) : Prop where
  size : d.i_size0 = 0 ∧ d.i_size1 = BitVec.ofNat 16 cs.length
  count : bs.length < 256
  own : ∀ b ∈ bs, lo ≤ b ∧ b < hi ∧ b ∉ st
  data : ∀ i < cs.length, i / 512 < bs.length ∧
    image (bs.getD (i / 512) 0).toNat (i % 512) = cs.getD i 0
  addr : (d.i_mode &&& ILARG = 0 ∧ bs.length ≤ 8 ∧
      ∀ k : Fin 8, k.val < bs.length → d.i_addr k = BitVec.ofInt 16 (bs.getD k 0)) ∨
    (d.i_mode &&& ILARG ≠ 0 ∧ ∃ ind : ℤ, (lo ≤ ind ∧ ind < hi ∧ ind ∉ st) ∧
      d.i_addr 0 = BitVec.ofInt 16 ind ∧
      ∀ k < bs.length, (image ind.toNat).word k = BitVec.ofInt 16 (bs.getD k 0))

/-- An element read below the length belongs to the list. -/
theorem getD_mem {α : Type} {l : List α} {i : ℕ} (hi : i < l.length) (d : α) : l.getD i d ∈ l := by
  rw [List.getD_eq_getElem _ _ hi]
  exact List.getElem_mem hi

/-- A file depends on its own blocks only. -/
theorem Held.mono {image image' : ℕ → Block} {st st' : List ℤ} {cs : List Byte} {d : Dinode}
    {bs : List ℤ} (h : Held lo hi image st cs d bs)
    (himage : ∀ b : ℤ, lo ≤ b → b < hi → b ∉ st → image' b.toNat = image b.toNat)
    (hst : ∀ b ∈ st', b ∈ st) : Held lo hi image' st' cs d bs := by
  refine ⟨h.size, h.count, fun b hb => ?_, fun i hi => ?_, h.addr.imp_right ?_⟩
  · obtain ⟨h₁, h₂, h₃⟩ := h.own b hb
    exact ⟨h₁, h₂, fun hb => h₃ (hst b hb)⟩
  · obtain ⟨hdiv, hbyte⟩ := h.data i hi
    obtain ⟨h₁, h₂, h₃⟩ := h.own _ (getD_mem hdiv 0)
    exact ⟨hdiv, by rw [himage _ h₁ h₂ h₃, hbyte]⟩
  · rintro ⟨hlarge, ind, ⟨h₁, h₂, h₃⟩, haddr, hwords⟩
    refine ⟨hlarge, ind, ⟨h₁, h₂, fun hb => h₃ (hst ind hb)⟩, haddr, fun k hk => ?_⟩
    rw [himage ind h₁ h₂ h₃]
    exact hwords k hk

theorem store_zero (cs : List Byte) (j : ℕ) : store Block.zero 0 cs j = cs.getD j 0 := by
  unfold store
  split
  · rfl
  · next h => rw [List.getD_eq_default _ _ (by omega)]; rfl

section

variable {cs : List Byte} {n : ℕ} {ip : Inode} {ib : Block} {r : Inode × Blocks} {s : St}
  {bs st' : List ℤ}

/-- Each byte of the file is at its place in the image. -/
theorem Copied.data (h : Copied lo hi image st (cs.toChunks 512) ip 0 ib r s bs st') {i : ℕ}
    (hi : i < cs.length) :
    i / 512 < bs.length ∧ s.image (bs.getD (i / 512) 0).toNat (i % 512) = cs.getD i 0 := by
  have hpos : 0 < 512 := by decide
  obtain ⟨hdiv, hget⟩ := (List.chunked_toChunks hpos cs).getD hpos 0 hi
  rw [← h.filled.length] at hdiv
  refine ⟨hdiv, ?_⟩
  rw [h.filled.data _ hdiv, store_zero, hget]

/-- The inode written for the file has the file's size and addresses. -/
theorem Copied.inode_eq (h : Copied lo hi image st (cs.toChunks 512) ip 0 ib r s bs st')
    (hbare : Bare n ip) : r.1.i_size0 = 0 ∧ r.1.i_size1 = BitVec.ofNat 16 cs.length ∧
      r.1.i_mode &&& ILARG = 0 ∧ r.1.i_number = BitVec.ofNat 16 n := by
  have hflatten := (List.chunked_toChunks (n := 512) (by decide) cs).flatten
  rw [h.inode, hflatten]
  refine ⟨hbare.size.1, ?_, hbare.small, hbare.number⟩
  dsimp only
  rw [hbare.size.2]
  exact BitVec.zero_add _

end

/-- A file is copied and its addresses are set. -/
theorem held_spec (hlo : 0 < lo) (cs : List Byte) {n : ℕ} {ip : Inode} (hbare : Bare n ip)
    {r : Inode × Blocks} {bs st' : List ℤ} {image₀ : ℕ → Block} {ib : Block} {s₀ : St}
    (h : Copied lo hi image₀ st (cs.toChunks 512) ip 0 ib r s₀ bs st') (himage : s₀.image = image) :
    Triple (fun s => s.image = image ∧ Frees lo hi s st') (addresses E r.1 r.2)
      (fun ip' s => ip'.i_number = BitVec.ofNat 16 n ∧ ∃ st'', Frees lo hi s st'' ∧
        (∀ b ∈ st'', b ∈ st') ∧ (∀ pos : ℕ, (pos : ℤ) ∉ st' → s.image pos = image pos) ∧
        Held lo hi s.image st'' cs ip'.toDinode bs)
      fun _ => True := by
  obtain ⟨hsize0, hsize1, hsmall, hnumber⟩ := h.inode_eq hbare
  have hcount : bs.length < 256 := by
    have := h.count
    omega
  have hibc : r.2.ibc = bs.length := h.blocks.2.trans (Nat.zero_add _)
  -- the addresses collected are those of the blocks
  have hword : ∀ j < bs.length, r.2.ib.word j = BitVec.ofInt 16 (bs.getD j 0) := fun j hj => by
    have := h.addrs j hj
    rwa [Nat.zero_add] at this
  refine (addresses_spec hlo r.1 h.blocks.1).post ?_
  -- at most eight blocks stay in the inode, more of them go to an indirect block
  rintro ip' s (⟨hle, rfl, hs, rfl⟩ | ⟨hlt, ind, st'', htaken, himage', hs, rfl⟩)
  · refine ⟨hnumber, st', hs, fun b hb => hb, fun _ _ => rfl, ⟨hsize0, hsize1⟩, hcount,
      fun b hb => ?_, fun i hi => ?_, .inl ⟨hsmall, hibc ▸ hle, fun k hk => ?_⟩⟩
    · exact ⟨(h.range b hb).1, (h.range b hb).2, h.apart b hb⟩
    · rw [← himage]
      exact h.data hi
    · dsimp only
      rw [hibc, if_pos hk]
      exact hword k hk
  · -- the indirect block is none of the blocks of the file
    have hne : ∀ b ∈ bs, b ≠ ind ∧ b ∉ st'' := fun b hb => by
      have hapart := h.apart b hb
      rw [htaken.eq, List.mem_cons, not_or] at hapart
      exact hapart
    have hpos : (0 : ℤ) ≤ ind := (Int.natCast_nonneg lo).trans htaken.range.1
    refine ⟨hnumber, st'', hs, fun b hb => htaken.eq ▸ List.mem_cons_of_mem _ hb, fun pos hp => ?_,
      ⟨hsize0, hsize1⟩, hcount, fun b hb => ⟨(h.range b hb).1, (h.range b hb).2, (hne b hb).2⟩,
      fun i hi => ?_, .inr ⟨?_, ind, ⟨htaken.range.1, htaken.range.2, htaken.fresh⟩, ?_,
      fun k hk => ?_⟩⟩
    · rw [htaken.eq, List.mem_cons, not_or] at hp
      rw [himage', update_of_ne (by omega)]
    · obtain ⟨hdiv, hbyte⟩ := h.data hi
      have hmem := getD_mem hdiv 0
      have hdiff := (hne _ hmem).1
      have hrange := (h.range _ hmem).1
      refine ⟨hdiv, ?_⟩
      rw [himage', update_of_ne (by omega), ← himage]
      exact hbyte
    · dsimp only
      rw [BitVec.and_or_distrib_right, hsmall]
      decide
    · exact update_self (0 : Fin 8) (BitVec.ofInt 16 ind) r.1.i_addr
    · rw [himage', update_self]
      exact hword k hk

end UnixV6.Mkfs
