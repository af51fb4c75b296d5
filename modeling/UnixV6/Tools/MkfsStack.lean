import UnixV6.Tools.MkfsFrame
import UnixV6.Tools.MkfsFree

/-!
# The free list of `mkfs`

`bflist` builds the list that the kernel works with, and `alloc` takes its blocks from it; only that
nothing is checked here.
-/

open Function

namespace UnixV6.Mkfs

variable {E : Env}

/-- The words of the blocks. -/
def words (image : ℕ → Block) (b : ℤ) (i : ℕ) : ℤ := ((image b.toNat).word i).toInt

/-- The free blocks are `st`, the next one first; they lie from `lo` up to `hi`. -/
structure Frees (lo hi : ℕ) (s : St) (st : List ℤ) : Prop where
  stack : FreeStack (words s.image) s.s_nfree s.s_free st
  nodup : st.Nodup
  range : ∀ b ∈ st, lo ≤ b ∧ b < hi

/-- The block at `pos` has been written. -/
def St.wrote (s : St) (pos : ℕ) (bf : Block) : St :=
  { s with
    image := update s.image pos bf
    size := max s.size (pos + 1)
    fso := pos + 1 }

/-- `wtfs` of a block number that is not negative writes that block. -/
theorem wtfs_eq {bno : ℤ} (h : 0 ≤ bno) (bf : Block) :
    wtfs E bno bf = modify fun s => s.wrote bno.toNat bf := by
  funext s
  have hseek : E.seek s.fso bno = bno.toNat := if_pos h
  unfold wtfs
  rw [hseek]
  rfl

/-- `rdfs` fills the buffer and moves the file pointer behind the block. -/
theorem rdfs_spec {P : St → Prop} {bno : ℤ} (h : 0 ≤ bno) :
    Triple P (rdfs E bno)
      (fun _ s' => ∃ s, P s ∧ s' = { s with buf := s.image bno.toNat, fsi := bno.toNat + 1 })
      fun _ => True := by
  intro s hs
  have hseek : E.seek s.fsi bno = bno.toNat := if_pos h
  refine ⟨fun a s' hok => ⟨s, hs, ?_⟩, fun _ _ _ => trivial⟩
  unfold rdfs at hok
  rw [hseek] at hok
  dsimp only at hok
  split at hok
  · cases hok
    rfl
  · cases hok

/-- Writing one block leaves the words of the others. -/
theorem words_update_of_ne (image : ℕ → Block) {b c : ℤ} (hb : 0 < b) (h : c ≠ b) (bf : Block) :
    words (update image b.toNat bf) c = words image c := by
  funext i
  unfold words
  rw [update_of_ne (by omega)]

namespace Frees

variable {lo hi : ℕ} {s s' : St} {st : List ℤ} {b : ℤ}

/-- The free list reads the superblock's list and the image only. -/
theorem congr (h : Frees lo hi s st) (hnfree : s'.s_nfree = s.s_nfree)
    (hfree : s'.s_free = s.s_free) (himage : s'.image = s.image) : Frees lo hi s' st := by
  refine ⟨?_, h.nodup, h.range⟩
  rw [hnfree, hfree, himage]
  exact h.stack

/-- A block that is not free may be written. -/
theorem wrote (h : Frees lo hi s st) (hb : 0 < b) (hst : b ∉ st) (bf : Block) :
    Frees lo hi (s.wrote b.toNat bf) st := by
  refine ⟨h.stack.congr (fun i _ => rfl) fun c hc i _ => ?_, h.nodup, h.range⟩
  have hne : c ≠ b := fun hcb => hst (hcb ▸ hc)
  exact congrFun (words_update_of_ne s.image hb hne bf) i

end Frees

/-! ## `alloc` -/

variable {lo hi : ℕ} {st : List ℤ} {image : ℕ → Block}

/-- `pop` gives the first free block, or the end mark. -/
theorem pop_spec :
    Triple (fun s => s.image = image ∧ Frees lo hi s st) pop
      (fun bno s => s.image = image ∧ (bno ≠ 0 → ∃ st', st = bno :: st' ∧ st.Nodup ∧
        (∀ b ∈ st, lo ≤ b ∧ b < hi) ∧
        ((s.s_nfree = 0 ∧ FreeStack (words image) (words image bno 0)
            (fun i => words image bno (i + 1)) st') ∨
          (0 < s.s_nfree ∧ FreeStack (words image) s.s_nfree s.s_free st'))))
      fun _ => True := by
  rintro s ⟨rfl, hs⟩
  refine ⟨fun bno s' hok => ?_, fun _ _ _ => trivial⟩
  unfold pop at hok
  dsimp only at hok
  split at hok
  · next hbound =>
    cases hok
    refine ⟨rfl, fun hne => ?_⟩
    cases st with
    | nil =>
      -- only the end mark is left
      rcases hs.stack.of_nil with hzero | ⟨hone, hend⟩
      · rw [hzero] at hbound
        exact absurd hbound (by decide)
      · rw [hone] at hne
        exact absurd hend hne
    | cons b st =>
      obtain ⟨n, hn, hlt, hentry, hrest⟩ := hs.stack.pop
      -- the count fits into a word
      have hshort : short (s.s_nfree - 1) = n := by
        unfold short
        rw [hn, Int.add_sub_cancel, Int.bmod_eq_of_le (by omega) (by omega)]
      rw [hshort, Int.toNat_natCast, hentry]
      refine ⟨st, rfl, hs.nodup, hs.range, ?_⟩
      rcases hrest with ⟨rfl, hstack⟩ | ⟨hpos, hstack⟩
      · exact .inl ⟨rfl, hstack⟩
      · refine .inr ⟨Int.natCast_pos.mpr hpos, hstack.congr_entries fun i hi => ?_⟩
        exact update_of_ne (by omega) _ _
  · cases hok

/-- The block `b` has been taken from the list, and `st'` is left. -/
structure Taken (lo hi : ℕ) (st : List ℤ) (b : ℤ) (st' : List ℤ) : Prop where
  eq : st = b :: st'
  fresh : b ∉ st'
  range : lo ≤ b ∧ b < hi

/-- `alloc` gives the first free block. -/
theorem alloc_spec :
    Triple (fun s => s.image = image ∧ Frees lo hi s st) (alloc E)
      (fun bno s => s.image = image ∧ ∃ st', Taken lo hi st bno st' ∧ Frees lo hi s st')
      fun _ => True := by
  refine pop_spec.bind fun bno => .ite (fun _ => .throw fun _ _ => trivial) fun hne => ?_
  refine .of_forall fun s ⟨himage, hs⟩ => ?_
  obtain ⟨st', rfl, hnodup, hrange, hrest⟩ := hs hne
  obtain ⟨hfresh, hnodup'⟩ := List.nodup_cons.mp hnodup
  have htaken : Taken lo hi (bno :: st') bno st' := ⟨rfl, hfresh, hrange bno List.mem_cons_self⟩
  have hrange' : ∀ b ∈ st', lo ≤ b ∧ b < hi := fun b hb => hrange b (List.mem_cons_of_mem _ hb)
  have hpos : 0 ≤ bno := (Int.natCast_nonneg lo).trans htaken.range.1
  refine Triple.get_bind (.ite (fun hle => ?_) fun hgt => ?_)
  · -- the block that is given away holds the rest of the list
    obtain ⟨-, hstack⟩ := hrest.resolve_right fun h => absurd h.1 (not_lt.mpr hle)
    refine (rdfs_spec hpos).bind fun _ => Triple.bind (Q := fun _ s => s.image = image ∧
      Frees lo hi s st') (.modify ?_) fun _ => .pure fun s hs => ⟨hs.1, st', htaken, hs.2⟩
    rintro - ⟨s₁, rfl, rfl⟩
    refine ⟨himage, ?_, hnodup', hrange'⟩
    have hload : FreeStack (words s₁.image) (words s₁.image bno 0)
        (fun i => if i < 100 then words s₁.image bno (i + 1) else s₁.s_free i) st' := by
      rw [himage]
      exact hstack.congr (fun i hi => if_pos hi) fun _ _ _ _ => rfl
    exact hload
  · obtain ⟨-, hstack⟩ := hrest.resolve_left fun h => absurd h.1.le hgt
    refine .pure ?_
    rintro s₁ rfl
    exact ⟨himage, st', htaken, himage ▸ hstack, hnodup', hrange'⟩

/-- A block is taken and written. -/
theorem alloc_wtfs {β : Type} {bf : Block} {f : ℤ → M β} {Q : β → St → Prop} (hlo : 0 < lo)
    (hf : ∀ bno st', Taken lo hi st bno st' →
      Triple (fun s => s.image = update image bno.toNat bf ∧ Frees lo hi s st') (f bno) Q
        fun _ => True) :
    Triple (fun s => s.image = image ∧ Frees lo hi s st)
      (alloc E >>= fun bno => wtfs E bno bf >>= fun _ => f bno) Q fun _ => True := by
  refine alloc_spec.bind fun bno => .of_forall fun s ⟨himage, st', htaken, hs⟩ => ?_
  have hpos : 0 < bno := (Int.natCast_pos.mpr hlo).trans_le htaken.range.1
  rw [wtfs_eq hpos.le]
  refine Triple.modify_bind ((hf bno st' htaken).imp ?_ (fun _ _ h => h) fun _ h => h)
  rintro s₁ rfl
  exact ⟨himage ▸ rfl, hs.wrote hpos htaken.fresh bf⟩

/-! ## `bflist` -/

/-- The list while it is built. What the block `top` holds does not matter: it is the first that is
freed, and `main` clears it later when there is no swap space behind it. -/
structure Building (lo hi top : ℕ) (s : St) (st : List ℤ) : Prop where
  stack : ∀ bf, FreeStack (words (update s.image top bf)) s.s_nfree s.s_free st
  pos : 0 < s.s_nfree
  entries : ∀ i, -32768 ≤ s.s_free i ∧ s.s_free i < 32768
  nodup : st.Nodup
  range : ∀ b ∈ st, lo ≤ b ∧ b < hi

/-- A list under construction is a free list. -/
theorem Building.frees {top : ℕ} {s : St} (h : Building lo hi top s st) : Frees lo hi s st := by
  refine ⟨?_, h.nodup, h.range⟩
  have hstack := h.stack (s.image top)
  rwa [update_eq_self] at hstack

/-- The words that `save` puts into the buffer. -/
theorem word_save (s : St) (hentries : ∀ i, -32768 ≤ s.s_free i ∧ s.s_free i < 32768)
    (hnfree : s.s_nfree = 100) :
    (s.save.buf.word 0).toInt = s.s_nfree ∧
      ∀ i < 100, (s.save.buf.word (i + 1)).toInt = s.s_free i := by
  unfold St.save
  dsimp only
  constructor
  · rw [Block.word_putWords, if_pos (by omega), hnfree]
    rfl
  · intro i hi
    rw [Block.word_putWords, if_pos (by omega)]
    dsimp only [Nat.sub_zero]
    rw [BitVec.toInt_ofInt, Int.bmod_eq_of_le (by have := hentries i; omega)
      (by have := hentries i; omega)]

section

variable {top b : ℕ} (hhi : hi ≤ 32768) (hlo : lo ≤ b) (hb : b < hi) (hst : (b : ℤ) ∉ st)
include hhi hlo hb hst

omit hlo hst in
theorem short_natCast : short b = b := by
  unfold short
  rw [Int.bmod_eq_of_le (by omega) (by omega)]

/-- One more block is put on the list. -/
theorem Building.cons {s : St} (h : Building lo hi top s st) {s' : St} (hpos : 0 < s'.s_nfree)
    (hstack : ∀ bf, FreeStack (words (update s'.image top bf)) s'.s_nfree s'.s_free (b :: st))
    (k : ℕ) (hfree : s'.s_free = update s.s_free k b) : Building lo hi top s' (b :: st) := by
  refine ⟨hstack, hpos, fun i => ?_, List.nodup_cons.mpr ⟨hst, h.nodup⟩, fun c hc => ?_⟩
  · rw [hfree]
    rcases eq_or_ne i k with rfl | hik
    · rw [update_self]
      omega
    · rw [update_of_ne hik]
      exact h.entries i
  · rcases List.mem_cons.mp hc with rfl | hc
    · omega
    · exact h.range c hc

/-- One more block, which becomes an entry or the block of the entries. -/
theorem bfree_spec (hlo0 : 0 < lo) (htop : b ≠ top ∨ st = []) :
    Triple (Building lo hi top · st) (bfree E b) (fun _ => (Building lo hi top · (b :: st)))
      fun _ => True := by
  refine .of_forall fun s hs => Triple.get_bind (.ite (fun hfull => ?_) fun hroom => ?_)
  · -- the entries go to the block, which is then the first entry
    have hcount : s.s_nfree = 100 := by
      have := (hs.stack Block.zero).count
      omega
    have hne : b ≠ top := htop.resolve_right fun hnil => by
      have := (hnil ▸ hs.stack Block.zero).of_nil
      omega
    refine Triple.modify_bind (Triple.get_bind ?_)
    rw [wtfs_eq (Int.natCast_nonneg b)]
    refine Triple.modify_bind (Triple.modify_bind ?_)
    refine fun s₁ h₁ => ⟨fun _ s' hok => ?_, fun _ _ _ => trivial⟩
    subst h₁
    cases hok
    have hpos : (0 : ℤ) < b := by omega
    obtain ⟨hzero, hword⟩ := word_save s hs.entries hcount
    refine hs.cons hhi hlo hb hst Int.one_pos (fun bf => ?_) 0 ?_
    · have hself : ∀ i, words (update (update s.image top bf) b s.save.buf) b i =
          (s.save.buf.word i).toInt := fun i => by
        unfold words
        rw [Int.toNat_natCast, update_self]
      have hspill : FreeStack (words (update (update s.image top bf) b s.save.buf)) 1
          (update s.s_free 0 b) (b :: st) :=
        (hs.stack bf).spill hpos.ne' hst ((hself 0).trans hzero)
          (fun i hi => (hself (i + 1)).trans (hword i hi))
          fun c hc => words_update_of_ne (update s.image top bf) hpos hc s.save.buf
      change FreeStack (words (update (update s.image b s.save.buf) top bf)) 1
        (update s.s_free 0 (short b)) (b :: st)
      rwa [short_natCast hhi hb, update_comm hne]
    · exact congrArg (update s.s_free 0) (short_natCast hhi hb)
  · refine fun s₁ h₁ => ⟨fun _ s' hok => ?_, fun _ _ _ => trivial⟩
    subst h₁
    -- there is room for the entry
    have hpos := hs.pos
    unfold push at hok
    rw [if_pos (by omega)] at hok
    cases hok
    obtain ⟨n, hn⟩ : ∃ n : ℕ, s₁.s_nfree = n + 1 := ⟨(s₁.s_nfree - 1).toNat, by omega⟩
    have htoNat : s₁.s_nfree.toNat = n + 1 := by omega
    refine hs.cons hhi hlo hb hst (by dsimp only; omega) (fun bf => ?_) (n + 1) ?_
    · dsimp only
      rw [htoNat, short_natCast hhi hb, hn]
      have hstack := hs.stack bf
      rw [hn] at hstack
      exact hstack.push (by omega) b
    · dsimp only
      rw [htoNat, short_natCast hhi hb]

end

/-- The blocks of a list that are freed one after the other. -/
theorem each_bfree_spec (hhi : hi ≤ 32768) (hlo0 : 0 < lo) {top : ℕ} {xs : List ℕ}
    (hnodup : xs.Nodup) (hxs : ∀ b ∈ xs, lo ≤ b ∧ b < hi ∧ (b : ℤ) ∉ st) (htail : top ∉ xs.tail)
    (htop : top ∉ xs ∨ st = []) :
    Triple (Building lo hi top · st) (each (fun i : ℕ => bfree E i) xs)
      (fun _ s => ∃ st', Building lo hi top s st') fun _ => True := by
  induction xs generalizing st with
  | nil => exact .pure fun s hs => ⟨st, hs⟩
  | cons b xs ih =>
    obtain ⟨hlo, hhi', hst⟩ := hxs b List.mem_cons_self
    obtain ⟨hb, hnodup⟩ := List.nodup_cons.mp hnodup
    have hne : b ≠ top ∨ st = [] := htop.imp_left fun h hbt => h (hbt ▸ List.mem_cons_self)
    refine (bfree_spec hhi hlo hhi' hst hlo0 hne).bind fun _ => ih hnodup (fun c hc => ?_)
      (fun h => htail (List.mem_of_mem_tail h)) (.inl htail)
    obtain ⟨h₁, h₂, h₃⟩ := hxs c (List.mem_cons_of_mem _ hc)
    refine ⟨h₁, h₂, fun h => ?_⟩
    rcases List.mem_cons.mp h with hcb | h
    · exact hb (Int.natCast_inj.mp hcb ▸ hc)
    · exact h₃ h

/-- The state after the sizes have been read. -/
structure Sized (lo hi : ℕ) (s : St) : Prop where
  isize : s.s_isize.toNat + 2 = lo
  fsize : s.s_fsize.toNat = hi
  ratio : 2 * s.s_isize.toNat + 2 ≤ s.s_fsize.toNat

/-- The end mark is the first entry. -/
theorem bfree_zero_spec (top : ℕ) :
    Triple (fun s => Sized lo hi s ∧ s.s_nfree = 0 ∧ s.s_free = fun _ => 0) (bfree E 0)
      (fun _ s => Sized lo hi s ∧ Building lo hi top s []) fun _ => True := by
  refine .of_forall fun s ⟨hsized, hnfree, hfree⟩ => Triple.get_bind ?_
  refine .ite (fun hfull => ?_) fun _ => ?_
  · omega
  · refine fun s₁ h₁ => ⟨fun _ s' hok => ?_, fun _ _ _ => trivial⟩
    subst h₁
    unfold push at hok
    rw [hnfree] at hok
    cases hok
    have hzero : update s₁.s_free 0 (short 0) = fun _ => 0 := by
      rw [hfree]
      exact update_eq_self _ _
    refine ⟨⟨hsized.isize, hsized.fsize, hsized.ratio⟩, fun bf => ?_, Int.one_pos, fun i => ?_,
      List.nodup_nil, nofun⟩
    · exact FreeStack.last (n := 0) (by decide) (congrFun hzero 0)
    · have := congrFun hzero i
      dsimp only [Int.toNat_zero] at this ⊢
      omega

/-- `bflist` builds a list of blocks behind the inodes. -/
theorem bflist_spec {r : ℕ × ℕ} (hr : r ∈ [(1, 1), (24, 3), (10, 4)]) (hpos : 0 < r.1)
    (hhi : hi ≤ 32768) :
    Triple (fun s => Sized lo hi s ∧ s.s_nfree = 0 ∧ s.s_free = fun _ => 0) (bflist E r.1 r.2)
      (fun _ s => ∃ st, Building lo hi (hi - 1) s st) fun _ => True := by
  refine (bfree_zero_spec (hi - 1)).bind fun _ => .of_forall fun s ⟨hsized, hbuilding⟩ => ?_
  refine Triple.get_bind ?_
  obtain ⟨hisize, hfsize, hratio⟩ := hsized
  have hlow : (s.s_isize + 2).toNat = lo := by
    have htwo : (2 : BitVec 16).toNat = 2 := rfl
    rw [BitVec.toNat_add, htwo, Nat.mod_eq_of_lt (by omega), hisize]
  have hhigh : (s.s_fsize - 1).toNat = hi - 1 := by
    have hone : (1 : BitVec 16).toNat = 1 := rfl
    rw [BitVec.toNat_sub_of_le (BitVec.le_def.mpr (by omega)), hone, hfsize]
  have hnodup := nodup_freeOrder hr hpos s.s_fsize s.s_isize
  have hbounds := freeOrder_bounds hpos r.2 s.s_fsize s.s_isize
  have hleads := leads_freeOrder hpos r.2 s.s_fsize s.s_isize
  rw [hlow, hhigh] at hbounds
  rw [hhigh] at hleads
  -- the block that leads is not met again
  have htail : hi - 1 ∉ (freeOrder r.1 r.2 s.s_fsize s.s_isize).tail := by
    rcases hleads with hnil | ⟨rest, hcons⟩
    · rw [hnil]
      exact List.not_mem_nil
    · rw [hcons] at hnodup ⊢
      exact (List.nodup_cons.mp hnodup).1
  refine (each_bfree_spec hhi (by omega) hnodup (fun b hb => ?_) htail (.inr rfl)).imp ?_
    (fun _ _ h => h) fun _ h => h
  · obtain ⟨h₁, h₂⟩ := hbounds b hb
    exact ⟨h₁, by omega, List.not_mem_nil⟩
  · rintro s₁ rfl
    exact hbuilding

end UnixV6.Mkfs
