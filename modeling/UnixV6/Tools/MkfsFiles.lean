import UnixV6.Tools.MkfsCopy

/-!
# The files that `mkfs` has made stay on the image

While the numbers have a place among the inodes, an inode is written below the blocks of the files,
and every block is taken once. So what has been made is not written again.
-/

open Function

namespace UnixV6.Mkfs

variable {E : Env} {lo hi : ℕ} {D : Set ℕ}

/-- The largest number that has a place below the block `lo`. -/
def bound (lo : ℕ) : ℕ := min (16 * (lo - 2)) 32736

/-- The file with the inode numbered `n` has the bytes `cs`. -/
def Stored (lo hi : ℕ) (image : ℕ → Block) (st : List ℤ) (n : ℕ) (cs : List Byte) : Prop :=
  ∃ d bs, Held lo hi image st cs d bs ∧
    ∀ k < 16, (image ((n + 31) / 16)).word (16 * ((n + 31) % 16) + k) = d.word k

/-- A file is stored in a later image with the same blocks. -/
theorem Stored.mono {image image' : ℕ → Block} {st st' : List ℤ} {n : ℕ} {cs : List Byte}
    (h : Stored lo hi image st n cs)
    (himage : ∀ b : ℤ, lo ≤ b → b < hi → b ∉ st → image' b.toNat = image b.toNat)
    (hst : ∀ b ∈ st', b ∈ st)
    (hinode : ∀ k < 16, (image' ((n + 31) / 16)).word (16 * ((n + 31) % 16) + k) =
      (image ((n + 31) / 16)).word (16 * ((n + 31) % 16) + k)) : Stored lo hi image' st' n cs := by
  obtain ⟨d, bs, hheld, hwords⟩ := h
  exact ⟨d, bs, hheld.mono himage hst, fun k hk => (hinode k hk).trans (hwords k hk)⟩

/-- The files that have been made are on the image, and their blocks are not free. -/
structure Kept (lo hi : ℕ) (D : Set ℕ) (s : St) : Prop where
  isize : s.s_isize.toNat + 2 = lo
  list : ∃ st, Frees lo hi s st ∧ ∀ x ∈ s.copied, Stored lo hi s.image st x.1 x.2
  copied : ∀ x ∈ s.copied, 1 ≤ x.1 ∧ x.1 ≤ s.ino ∧ x.1 ∉ D
  pending : ∀ n ∈ D, 1 ≤ n ∧ n ≤ s.ino
  fits : s.ino ≤ bound lo

theorem inode_below {n : ℕ} (hlo : 2 ≤ lo) (hn : n ≤ bound lo) : (n + 31) / 16 < lo := by
  unfold bound at hn
  omega

theorem Kept.two_le {s : St} (h : Kept lo hi D s) : 2 ≤ lo := by
  have := h.isize
  omega

/-- Free blocks are written. -/
theorem Kept.stored {s s' : St} {st st' : List ℤ} (h : Kept lo hi D s) (hfrees : Frees lo hi s st)
    (hstored : ∀ x ∈ s.copied, Stored lo hi s.image st x.1 x.2) (hst : ∀ b ∈ st', b ∈ st)
    (himage : ∀ pos : ℕ, (pos : ℤ) ∉ st → s'.image pos = s.image pos) :
    ∀ x ∈ s.copied, Stored lo hi s'.image st' x.1 x.2 := by
  intro x hx
  have hbelow := inode_below h.two_le ((h.copied x hx).2.1.trans h.fits)
  refine (hstored x hx).mono (fun b h₁ h₂ hb => himage b.toNat ?_) hst fun k _ => ?_
  · rwa [Int.toNat_of_nonneg (by omega)]
  · rw [himage _ fun hmem => ?_]
    have := (hfrees.range _ hmem).1
    omega

/-- Files stay stored when other blocks are taken. -/
theorem Kept.step {s s' : St} {st st' : List ℤ} (h : Kept lo hi D s) (hfrees : Frees lo hi s st)
    (hstored : ∀ x ∈ s.copied, Stored lo hi s.image st x.1 x.2)
    (hno : s'.noOutput = s.noOutput) (hfrees' : Frees lo hi s' st') (hst : ∀ b ∈ st', b ∈ st)
    (himage : ∀ pos : ℕ, (pos : ℤ) ∉ st → s'.image pos = s.image pos) : Kept lo hi D s' := by
  have hino : s'.ino = s.ino := congrArg (·.ino) hno
  have hcopied : s'.copied = s.copied := congrArg (·.copied) hno
  have hisize : s'.s_isize = s.s_isize := congrArg (·.s_isize) hno
  refine ⟨hisize ▸ h.isize, ⟨st', hfrees', ?_⟩, ?_, hino ▸ h.pending, hino ▸ h.fits⟩
  · rw [hcopied]
    exact h.stored hfrees hstored hst himage
  · rw [hcopied, hino]
    exact h.copied

/-! ## Blocks -/

/-- Only free blocks have been written, and no block has become free. -/
def Takes (lo hi : ℕ) (image : ℕ → Block) (st : List ℤ) (s : St) : Prop :=
  ∃ st', Frees lo hi s st' ∧ (∀ b ∈ st', b ∈ st) ∧
    ∀ pos : ℕ, (pos : ℤ) ∉ st → s.image pos = image pos

/-- A block that has been taken is written. -/
theorem Taken.takes {image : ℕ → Block} {st st' : List ℤ} {b : ℤ} {bf : Block} {s : St}
    (h : Taken lo hi st b st') (himage : s.image = update image b.toNat bf)
    (hfrees : Frees lo hi s st') : Takes lo hi image st s := by
  refine ⟨st', hfrees, fun c hc => h.eq ▸ List.mem_cons_of_mem _ hc, fun pos hpos => ?_⟩
  rw [h.eq, List.mem_cons, not_or] at hpos
  have := h.range.1
  rw [himage, update_of_ne (by omega)]

/-- A program that takes blocks keeps the files. -/
theorem Kept.of_takes {α : Type} {m : M α} (hm : Ends St.noOutput m)
    (hspec : 0 < lo → ∀ image st, Triple (fun s => s.image = image ∧ Frees lo hi s st) m
      (fun _ => Takes lo hi image st) fun _ => True) :
    Triple (Kept lo hi D) m (fun _ => Kept lo hi D) fun _ => True := by
  intro s h
  refine ⟨fun a s' hok => ?_, fun _ _ _ => trivial⟩
  obtain ⟨st, hfrees, hstored⟩ := h.list
  have hlo : 0 < lo := Nat.zero_lt_of_lt h.two_le
  obtain ⟨st', hfrees', hst, himage⟩ := (hspec hlo s.image st s ⟨rfl, hfrees⟩).1 a s' hok
  have hno := hm.keeps s
  rw [hok] at hno
  exact h.step hfrees hstored hno hfrees' hst himage

/-- A block is allocated. -/
theorem kept_newblk (b : Blocks) :
    Triple (Kept lo hi D) (newblk E b) (fun _ => Kept lo hi D) fun _ => True :=
  Kept.of_takes (ends_newblk b) fun hlo _ _ => (newblk_spec hlo b).post
    fun _ _ ⟨_, _, htaken, himage, hfrees, _⟩ => htaken.takes himage hfrees

/-- An entry of a directory is made. -/
theorem kept_entry (ino : BitVec 16) (str : List Byte) (b : Blocks) :
    Triple (Kept lo hi D) (entry E ino str b) (fun _ => Kept lo hi D) fun _ => True :=
  .ite (fun _ => kept_newblk _) fun _ => .pure fun _ h => h

/-- The addresses of a file go into its inode. -/
theorem kept_addresses (ip : Inode) (b : Blocks) :
    Triple (Kept lo hi D) (addresses E ip b) (fun _ => Kept lo hi D) fun _ => True := by
  refine Triple.bind (Q := fun _ => Kept lo hi D) ?_ fun b => .ite (fun _ => ?_) fun _ => ?_
  · exact .ite (fun _ => kept_newblk b) fun _ => .pure fun _ h => h
  · refine Kept.of_takes ?_ fun hlo _ _ => alloc_wtfs hlo fun ind st' htaken => .pure fun _ h =>
      htaken.takes h.1 h.2
    exact ends_alloc.bind fun _ => (ends_wtfs _ _).bind fun _ => .pure _
  · exact .pure fun _ h => h

/-! ## Inodes -/

/-- `place` writes the words of the inode, and nothing else. -/
theorem place_spec {n : ℕ} {ip : Inode} (hip : ip.i_number = BitVec.ofNat 16 n) (hn : n ≤ 32736)
    (s₀ : St) :
    Triple (fun s => s = s₀) (place E n ip)
      (fun _ s => s.image = update s₀.image ((n + 31) / 16)
          ((s₀.image ((n + 31) / 16)).putWords (16 * ((n + 31) % 16)) 16 ip.word) ∧
        s.s_nfree = s₀.s_nfree ∧ s.s_free = s₀.s_free ∧ s.s_isize = s₀.s_isize ∧ s.ino = s₀.ino ∧
        s.copied = s₀.copied)
      fun _ => True := by
  -- the numbers are small enough for signed arithmetic
  have hint : (ip.i_number + 31).toInt = ((n + 31 : ℕ) : ℤ) := by
    have h31 : (31 : BitVec 16).toNat = 31 := rfl
    have hsum : (ip.i_number + 31).toNat = n + 31 := by
      rw [hip, BitVec.toNat_add, BitVec.toNat_ofNat, h31]
      omega
    rw [BitVec.toInt_eq_toNat_of_lt (by omega), hsum]
  have hdiv : (ip.i_number + 31).toInt.tdiv 16 = (((n + 31) / 16 : ℕ) : ℤ) := by
    rw [hint, Int.tdiv_eq_ediv_of_nonneg (by omega)]
    omega
  have hmod : (ip.i_number + 31).toInt.tmod 16 = (((n + 31) % 16 : ℕ) : ℤ) := by
    rw [hint, Int.tmod_eq_emod_of_nonneg (by omega)]
    omega
  unfold place
  dsimp only
  rw [hdiv, hmod]
  refine .ite (fun hneg => absurd hneg (by omega)) fun _ => ?_
  refine (rdfs_spec (Int.natCast_nonneg _)).bind fun _ => .of_forall ?_
  rintro s ⟨-, rfl, rfl⟩
  refine Triple.modify_bind (Triple.get_bind ?_)
  rw [wtfs_eq (Int.natCast_nonneg _)]
  refine .modify ?_
  rintro s rfl
  exact ⟨rfl, rfl, rfl, rfl, rfl, rfl⟩

section

variable {s s' : St} {st : List ℤ} {n : ℕ} {ip : Inode}

/-- The image with the inode numbered `n`. -/
def withInode (image : ℕ → Block) (n : ℕ) (ip : Inode) : ℕ → Block :=
  update image ((n + 31) / 16) ((image ((n + 31) / 16)).putWords (16 * ((n + 31) % 16)) 16 ip.word)

/-- An inode changes no data. -/
theorem withInode_data (image : ℕ → Block) (ip : Inode) (hn : (n + 31) / 16 < lo) {b : ℤ}
    (hb : lo ≤ b) : withInode image n ip b.toNat = image b.toNat :=
  update_of_ne (by omega) _ _

/-- The other inodes in the block stay. -/
theorem withInode_other (image : ℕ → Block) (ip : Inode) {m k : ℕ} (hm : m ≠ n) (hk : k < 16) :
    (withInode image n ip ((m + 31) / 16)).word (16 * ((m + 31) % 16) + k) =
      (image ((m + 31) / 16)).word (16 * ((m + 31) % 16) + k) := by
  unfold withInode
  by_cases hblock : (m + 31) / 16 = (n + 31) / 16
  · rw [hblock, update_self, Block.word_putWords, if_neg (by omega)]
  · rw [update_of_ne hblock]

/-- The words of the inode. -/
theorem withInode_self (image : ℕ → Block) (n : ℕ) (ip : Inode) {k : ℕ} (hk : k < 16) :
    (withInode image n ip ((n + 31) / 16)).word (16 * ((n + 31) % 16) + k) = ip.word k := by
  unfold withInode
  rw [update_self, Block.word_putWords, if_pos (by omega), Nat.add_sub_cancel_left]

/-- An inode takes no block. -/
theorem Frees.withInode (h : Frees lo hi s st) (hn : (n + 31) / 16 < lo)
    (himage : s'.image = withInode s.image n ip) (hnfree : s'.s_nfree = s.s_nfree)
    (hfree : s'.s_free = s.s_free) : Frees lo hi s' st := by
  refine ⟨?_, h.nodup, h.range⟩
  rw [himage, hnfree, hfree]
  refine h.stack.congr (fun _ _ => rfl) fun b hb i _ => ?_
  unfold words
  rw [withInode_data _ _ hn (h.range b hb).1]

/-- The other files stay stored. -/
theorem Stored.withInode_ne {image : ℕ → Block} {m : ℕ} {cs : List Byte}
    (h : Stored lo hi image st m cs) (hn : (n + 31) / 16 < lo) (hm : m ≠ n) :
    Stored lo hi (withInode image n ip) st m cs :=
  h.mono (fun _ h₁ _ _ => withInode_data image ip hn h₁) (fun _ hb => hb)
    fun _ hk => withInode_other image ip hm hk

/-- A file is stored when its inode is in its place. -/
theorem Held.stored {image : ℕ → Block} {cs : List Byte} {bs : List ℤ}
    (h : Held lo hi image st cs ip.toDinode bs) (hn : (n + 31) / 16 < lo) :
    Stored lo hi (withInode image n ip) st n cs :=
  ⟨ip.toDinode, bs, h.mono (fun _ h₁ _ _ => withInode_data image ip hn h₁) fun _ hb => hb,
    fun _ hk => withInode_self image n ip hk⟩

end

/-- The inode is written, and its number is used. -/
theorem kept_place {n : ℕ} {ip : Inode} (hip : ip.i_number = BitVec.ofNat 16 n) :
    Triple (Kept lo hi (insert n D)) (place E n ip) (fun _ => Kept lo hi D) fun _ => True := by
  refine .of_forall fun s h => ?_
  obtain ⟨st, hfrees, hstored⟩ := h.list
  have hn := (h.pending n (Set.mem_insert n D)).2.trans h.fits
  have hbelow := inode_below h.two_le hn
  refine (place_spec hip (hn.trans (min_le_right _ _)) s).post ?_
  rintro - s' ⟨himage, hnfree, hfree, hisize, hino, hcopied⟩
  refine ⟨hisize ▸ h.isize, ⟨st, hfrees.withInode hbelow himage hnfree hfree, fun x hx => ?_⟩,
    fun x hx => ?_, fun m hm => ?_, hino ▸ h.fits⟩
  · rw [hcopied] at hx
    have hne : x.1 ≠ n := fun heq => (h.copied x hx).2.2 (heq ▸ Set.mem_insert n D)
    rw [himage]
    exact (hstored x hx).withInode_ne hbelow hne
  · rw [hcopied] at hx
    obtain ⟨h₁, h₂, h₃⟩ := h.copied x hx
    exact ⟨h₁, hino ▸ h₂, fun hmem => h₃ (Set.mem_insert_of_mem n hmem)⟩
  · rw [hino]
    exact h.pending m (Set.mem_insert_of_mem n hm)

/-- A file is copied, and its inode is written. -/
theorem kept_copy {n : ℕ} (hnew : n ∉ D) {ip : Inode} (hbare : Bare n ip) (cs : List Byte) :
    Triple (Kept lo hi (insert n D))
      (copyBlocks E (cs.toChunks 512) ip {} >>= fun r => addresses E r.1 r.2 >>= fun ip' =>
        place E n ip' >>= fun _ => modify fun s => { s with copied := (n, cs) :: s.copied })
      (fun _ => Kept lo hi D) fun _ => True := by
  refine .of_forall fun s h => ?_
  obtain ⟨st, hfrees, hstored⟩ := h.list
  have hlo : 0 < lo := Nat.zero_lt_of_lt h.two_le
  have hn := h.pending n (Set.mem_insert n D)
  have hbelow := inode_below h.two_le (hn.2.trans h.fits)
  have hframe : ∀ s₁ s₂ : St, s₂.noOutput = s₁.noOutput → s₁.noOutput = s.noOutput →
      s₂.noOutput = s.noOutput := fun _ _ h₁ h₂ => h₁.trans h₂
  have hcopy : Triple (fun s₁ => s₁ = s) (copyBlocks E (cs.toChunks 512) ip {})
      (fun r s₁ => (∃ bs st',
        Copied lo hi s.image st (cs.toChunks 512) ip 0 Block.zero r s₁ bs st') ∧ s₁.noOutput = s.noOutput) fun _ => True := by
    refine ((copyBlocks_spec hlo _ ip (by decide) Block.zero).frame
      (ends_copyBlocks _ ip {}).keeps hframe).imp ?_ (fun _ _ hs => hs) fun _ hs => hs
    rintro s₁ rfl
    exact ⟨⟨rfl, hfrees⟩, rfl⟩
  refine hcopy.bind fun r => .of_forall fun s₁ ⟨⟨bs, st₁, hcopied⟩, hno₁⟩ => ?_
  have hheld := (held_spec (E := E) hlo cs hbare hcopied rfl).frame
    (ends_addresses r.1 r.2).keeps hframe
  refine (hheld.imp ?_ (fun _ _ hs => hs) fun _ hs => hs).bind fun ip' => .of_forall ?_
  · rintro _ rfl
    exact ⟨⟨rfl, hcopied.frees⟩, hno₁⟩
  rintro s₂ ⟨⟨hnumber, st₂, hfrees₂, hsub, hrest, hfile⟩, hno₂⟩
  have hst₁ : ∀ b ∈ st₁, b ∈ st := fun b hb => hcopied.split ▸ List.mem_append_right bs hb
  have hst₂ : ∀ b ∈ st₂, b ∈ st := fun b hb => hst₁ b (hsub b hb)
  -- only blocks that were free have been written so far
  have himage : ∀ pos : ℕ, (pos : ℤ) ∉ st → s₂.image pos = s.image pos := by
    intro pos hpos
    rw [hrest pos fun hmem => hpos (hst₁ _ hmem)]
    exact hcopied.filled.rest pos fun hmem => hpos (hcopied.split ▸ List.mem_append_left st₁ hmem)
  have hothers := h.stored hfrees hstored hst₂ himage
  refine (place_spec hnumber ((hn.2.trans h.fits).trans (min_le_right _ _)) s₂).bind fun _ =>
    .modify ?_
  rintro s₃ ⟨himage₃, hnfree, hfree, hisize₃, hino₃, hcopied₃⟩
  have hino : s₃.ino = s.ino := hino₃.trans (congrArg (·.ino) hno₂)
  have hisize : s₃.s_isize = s.s_isize := hisize₃.trans (congrArg (·.s_isize) hno₂)
  have hcopied : s₃.copied = s.copied := hcopied₃.trans (congrArg (·.copied) hno₂)
  refine ⟨hisize ▸ h.isize, ⟨st₂, ?_, fun x hx => ?_⟩, fun x hx => ?_, fun m hm => ?_, ?_⟩
  · exact (hfrees₂.withInode hbelow himage₃ hnfree hfree).congr rfl rfl rfl
  · dsimp only
    rw [himage₃]
    rcases List.mem_cons.mp hx with rfl | hx
    · exact hfile.stored hbelow
    · rw [hcopied] at hx
      have hne : x.1 ≠ n := fun heq => (h.copied x hx).2.2 (heq ▸ Set.mem_insert n D)
      exact (hothers x hx).withInode_ne hbelow hne
  · dsimp only
    rw [hino]
    rcases List.mem_cons.mp hx with rfl | hx
    · exact ⟨hn.1, hn.2, hnew⟩
    · rw [hcopied] at hx
      obtain ⟨h₁, h₂, h₃⟩ := h.copied x hx
      exact ⟨h₁, h₂, fun hmem => h₃ (Set.mem_insert_of_mem n hmem)⟩
  · dsimp only
    rw [hino]
    exact h.pending m (Set.mem_insert_of_mem n hm)
  · dsimp only
    rw [hino]
    exact h.fits

/-- What is read of the input does not matter. -/
theorem Kept.noInput {s s' : St} (h : Kept lo hi D s) (hs : s'.noInput = s.noInput) :
    Kept lo hi D s' := by
  have hino : s'.ino = s.ino := congrArg (·.ino) hs
  have hcopied : s'.copied = s.copied := congrArg (·.copied) hs
  have hisize : s'.s_isize = s.s_isize := congrArg (·.s_isize) hs
  have himage : s'.image = s.image := congrArg (·.image) hs
  obtain ⟨st, hfrees, hstored⟩ := h.list
  refine ⟨hisize ▸ h.isize, ⟨st, hfrees.congr (congrArg (·.s_nfree) hs) (congrArg (·.s_free) hs)
    himage, ?_⟩, ?_, hino ▸ h.pending, hino ▸ h.fits⟩
  · rw [hcopied, himage]
    exact hstored
  · rw [hcopied, hino]
    exact h.copied

/-- A program that only reads keeps the files. -/
theorem kept_reads {α : Type} {m : M α} (hm : Keeps St.noInput m) :
    Triple (Kept lo hi D) m (fun _ => Kept lo hi D) fun _ => True :=
  (Triple.of_moves hm fun _ _ hs h => h.noInput hs).stop fun _ _ => trivial

/-- A regular file is stored. -/
theorem kept_regular {n : ℕ} (hnew : n ∉ D) {ip : Inode} (hbare : Bare n ip) (fuel : ℕ) :
    Triple (Kept lo hi (insert n D)) (regular E fuel n ip) (fun _ => Kept lo hi D)
      fun _ => True := by
  refine (kept_reads (keeps_getstr fuel)).bind fun _ => Triple.get_self.bind fun s => ?_
  cases E.files s.string with
  | none =>
    refine ((kept_addresses ip {}).and (i_number_addresses ip {})).bind fun ip' => ?_
    exact .given fun hip => kept_place (hip.trans hbare.number)
  | some cs => exact kept_copy hnew hbare cs

/-! ## The tree -/

/-- The numbers of the inodes have a place, and the numbers of the blocks are no negative `int`. -/
structure Sound (s : St) : Prop where
  inodes : s.ino ≤ min (16 * s.s_isize.toNat) 32736
  swap : 0 ≤ s.swap.toInt
  blocks : s.s_fsize.toNat + s.swap.toInt ≤ 32768

/-- What `Sound` looks at. -/
def St.limits (s : St) : ℕ × BitVec 16 × BitVec 16 × BitVec 16 :=
  (s.ino, s.s_isize, s.s_fsize, s.swap)

theorem Sound.congr {s s' : St} (h : Sound s) (hs : s'.limits = s.limits) : Sound s' := by
  have hino : s'.ino = s.ino := congrArg (·.1) hs
  have hisize : s'.s_isize = s.s_isize := congrArg (·.2.1) hs
  have hfsize : s'.s_fsize = s.s_fsize := congrArg (·.2.2.1) hs
  have hswap : s'.swap = s.swap := congrArg (·.2.2.2) hs
  refine ⟨?_, ?_, ?_⟩
  · rw [hino, hisize]
    exact h.inodes
  · rw [hswap]
    exact h.swap
  · rw [hfsize, hswap]
    exact h.blocks

/-- What has been made is kept as long as the numbers have a place. -/
structure Guarded (D : Set ℕ) (s : St) : Prop where
  pending : ∀ n ∈ D, n ≤ s.ino
  kept : Sound s → Kept (s.s_isize.toNat + 2) s.s_fsize.toNat D s

/-- A program that keeps the files and the sizes. -/
theorem Guarded.of_kept {α : Type} {D' : Set ℕ} {m : M α} (hm : Keeps St.limits m)
    (hD : ∀ n ∈ D', n ∈ D)
    (h : ∀ lo hi, Triple (Kept lo hi D) m (fun _ => Kept lo hi D') fun _ => True) :
    Triple (Guarded D) m (fun _ => Guarded D') fun _ => True := by
  intro s hs
  refine ⟨fun a s' hok => ?_, fun _ _ _ => trivial⟩
  have hlimits : s'.limits = s.limits := by
    have := hm s
    rwa [hok] at this
  have hino : s'.ino = s.ino := congrArg (·.1) hlimits
  have hisize : s'.s_isize = s.s_isize := congrArg (·.2.1) hlimits
  have hfsize : s'.s_fsize = s.s_fsize := congrArg (·.2.2.1) hlimits
  refine ⟨fun n hn => hino ▸ hs.pending n (hD n hn), fun hsound => ?_⟩
  rw [hisize, hfsize]
  exact (h _ _ s (hs.kept (hsound.congr hlimits.symm))).1 a s' hok

theorem Ends.limits {α : Type} {m : M α} (h : Ends St.noOutput m) : Keeps St.limits m :=
  h.keeps.imp fun _ _ hs => (congrArg St.limits hs :)

theorem Keeps.limits {α : Type} {m : M α} (h : Keeps St.noInput m) : Keeps St.limits m :=
  h.imp fun _ _ hs => (congrArg St.limits hs :)

theorem keeps_place (n : ℕ) (ip : Inode) : Keeps St.limits (place E n ip) := by
  refine .ite (fun _ => rfl) ((ends_rdfs _).limits.bind fun _ => ?_)
  refine Keeps.bind (fun _ => rfl) fun _ => Keeps.bind (fun _ => rfl) fun s => ?_
  exact (ends_wtfs _ _).limits

theorem keeps_regular (fuel n : ℕ) (ip : Inode) : Keeps St.limits (regular E fuel n ip) := by
  refine (keeps_getstr fuel).limits.bind fun _ => Keeps.bind (fun _ => rfl) fun s => ?_
  cases E.files s.string with
  | none => exact (ends_addresses ip {}).limits.bind fun ip' => keeps_place n ip'
  | some cs =>
    refine (ends_copyBlocks _ ip {}).limits.bind fun r => ?_
    refine (ends_addresses _ _).limits.bind fun ip' => ?_
    exact (keeps_place n ip').bind fun _ _ => rfl

/-- One more number has been given. -/
theorem Kept.next {s : St} (h : Kept lo hi D s) (hfits : s.ino + 1 ≤ bound lo) :
    Kept lo hi (insert (s.ino + 1) D) { s with ino := s.ino + 1 } := by
  obtain ⟨st, hfrees, hstored⟩ := h.list
  refine ⟨h.isize, ⟨st, hfrees.congr rfl rfl rfl, hstored⟩, fun x hx => ?_, fun n hn => ?_, hfits⟩
  · obtain ⟨h₁, h₂, h₃⟩ := h.copied x hx
    refine ⟨h₁, h₂.trans (Nat.le_succ _), fun hmem => ?_⟩
    rcases Set.mem_insert_iff.mp hmem with heq | hmem
    · exact absurd (heq.symm.le.trans h₂) (Nat.not_succ_le_self s.ino)
    · exact h₃ hmem
  · rcases Set.mem_insert_iff.mp hn with rfl | hn
    · exact ⟨Nat.succ_pos _, le_rfl⟩
    · exact ⟨(h.pending n hn).1, (h.pending n hn).2.trans (Nat.le_succ _)⟩

theorem bound_isize (s_isize : ℕ) : bound (s_isize + 2) = min (16 * s_isize) 32736 := by
  unfold bound
  rw [Nat.add_sub_cancel]

/-- The next number is a new one. -/
theorem guarded_nextIno :
    Triple (Guarded D) nextIno (fun n s => Guarded (insert n D) s ∧ n ∉ D) fun _ => True := by
  have hmodify : Triple (Guarded D) (modify fun s => { s with ino := s.ino + 1 } : M Unit)
      (fun _ s => Guarded (insert s.ino D) s ∧ s.ino ∉ D) fun _ => True := by
    refine .modify fun s hs => ⟨⟨fun n hn => ?_, fun hsound => ?_⟩,
      fun h => absurd (hs.pending _ h) (Nat.not_succ_le_self s.ino)⟩
    · rcases Set.mem_insert_iff.mp hn with rfl | hn
      · exact le_rfl
      · exact (hs.pending n hn).trans (Nat.le_succ _)
    · have hold : Sound s := ⟨(Nat.le_succ _).trans hsound.inodes, hsound.swap, hsound.blocks⟩
      refine (hs.kept hold).next ?_
      rw [bound_isize]
      exact hsound.inodes
  refine hmodify.bind fun _ => (Triple.get
    (Q := fun a s => Guarded (insert a.ino D) s ∧ a.ino ∉ D) fun s hs => hs).bind fun a => ?_
  exact .ite (fun _ => .throw fun _ _ => trivial) fun _ => .pure fun s hs => hs

/-- Every function keeps the files. -/
theorem treeInv_guarded : TreeInv E Guarded fun _ => True where
  stop _ _ _ := trivial
  noInput D s s' hs h := by
    have hlimits : s'.limits = s.limits := (congrArg St.limits hs :)
    have hino : s'.ino = s.ino := congrArg (·.1) hlimits
    have hisize : s'.s_isize = s.s_isize := congrArg (·.2.1) hlimits
    have hfsize : s'.s_fsize = s.s_fsize := congrArg (·.2.2.1) hlimits
    refine ⟨hino ▸ h.pending, fun hsound => ?_⟩
    rw [hisize, hfsize]
    exact (h.kept (hsound.congr hlimits.symm)).noInput hs
  entry _ ino str b :=
    Guarded.of_kept (ends_entry ino str b).limits (fun _ h => h) fun _ _ => kept_entry ino str b
  addresses _ ip b :=
    Guarded.of_kept (ends_addresses ip b).limits (fun _ h => h) fun _ _ => kept_addresses ip b
  nextIno _ := guarded_nextIno
  place _ n ip _ hip :=
    Guarded.of_kept (keeps_place n ip) (fun _ h => Set.mem_insert_of_mem n h)
      fun _ _ => kept_place hip
  regular _ fuel n ip hnew hbare :=
    Guarded.of_kept (keeps_regular fuel n ip) (fun _ h => Set.mem_insert_of_mem n h)
      fun _ _ => kept_regular hnew hbare fuel

end UnixV6.Mkfs
