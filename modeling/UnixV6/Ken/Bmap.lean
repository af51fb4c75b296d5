import UnixV6.Ken.Rdwri
import UnixV6.Lib.PointerTree

/-!
# The blocks of a file (`bmap` of `ken/subr.c`)

One regular file on a device. `disk` is what `bread` finds, wherever the buffer cache has it; the free
list is the stack that `alloc` and `free` make of it. A file has three regimes: up to eight blocks in
the inode; an indirect block for each of the first seven places of the inode; and indirect blocks of
indirect blocks from the eighth place.
-/

open Function

namespace UnixV6

def ENOSPC : ℕ := 28

/-- The contents of a block: 512 bytes. -/
abbrev Block : Type := ℕ → BitVec 8

namespace Block

/-- What `clrbuf` makes of a block. -/
def zero : Block := fun _ => 0

/-- The word at a place of a block, low byte first. -/
def word (b : Block) (k : ℕ) : BitVec 16 := b (2 * k + 1) ++ b (2 * k)

/-- `bap[k] = w`. -/
def setWord (b : Block) (k : ℕ) (w : BitVec 16) : Block :=
  update (update b (2 * k) (w.setWidth 8)) (2 * k + 1) ((w >>> 8).setWidth 8)

/-- The block that takes the eight addresses of an inode over. -/
def ofAddr (i_addr : ℕ → BitVec 16) : Block :=
  (List.range 8).foldl (fun b k => b.setWord k (i_addr k)) zero

end Block

/-- A file and its device. -/
structure FileDev where
  /-- `ILARG` in `i_mode`. -/
  ilarg : Bool
  i_addr : ℕ → BitVec 16
  i_size : BitVec 24
  disk : BitVec 16 → Block
  free : List (BitVec 16)

namespace FileDev

/-- `alloc`: a block, cleared, or 0. -/
def alloc (s : FileDev) : BitVec 16 × FileDev :=
  match s.free with
  | [] => (0, s)
  | b :: bs => (b, { s with free := bs, disk := update s.disk b Block.zero })

/-- The pointer in a place of the inode; a block is allocated for it if there is none. -/
def fetchAddr (s : FileDev) (i : ℕ) : BitVec 16 × FileDev :=
  if s.i_addr i ≠ 0 then (s.i_addr i, s)
  else
    let (b, s) := s.alloc
    if b = 0 then (0, s) else (b, { s with i_addr := update s.i_addr i b })

/-- The pointer in a place of a block; a block is allocated for it if there is none. -/
def fetchWord (s : FileDev) (bp : BitVec 16) (k : ℕ) : BitVec 16 × FileDev :=
  if (s.disk bp).word k ≠ 0 then ((s.disk bp).word k, s)
  else
    let (b, s) := s.alloc
    if b = 0 then (0, s)
    else (b, { s with disk := update s.disk bp ((s.disk bp).setWord k b) })

/-- Convert small to large; `false` if there is no block for it. -/
def toLarge (s : FileDev) : Bool × FileDev :=
  let (b, s) := s.alloc
  if b = 0 then (false, s)
  else (true, { s with
    ilarg := true
    i_addr := fun i => if i = 0 then b else 0
    disk := update s.disk b (Block.ofAddr s.i_addr) })

/-- The large file algorithm. -/
def large (s : FileDev) (bn : ℕ) : BitVec 16 × FileDev :=
  -- `bn & 0174000`
  let i := if bn / 2048 ≠ 0 then 7 else bn / 256
  let (bp, s) := s.fetchAddr i
  if bp = 0 then (0, s)
  else if i = 7 then
    -- "huge" fetch of double indirect block
    let (bp, s) := s.fetchWord bp (bn / 256 % 256 - 7)
    if bp = 0 then (0, s) else s.fetchWord bp (bn % 256)
  else s.fetchWord bp (bn % 256)

/-- `bmap` behind its check of the block number; 0 if there is no space. -/
def bmap (s : FileDev) (bn : ℕ) : BitVec 16 × FileDev :=
  if s.ilarg then s.large bn
  else if bn / 8 ≠ 0 then
    let (ok, s) := s.toLarge
    if ok then s.large bn else (0, s)
  else s.fetchAddr bn

/-! ## The tree -/

end FileDev

/-- The blocks of a file by their places: the indirect blocks in the inode, the indirect blocks in the
eighth of these, and the data. -/
inductive Node
  | ind (i : ℕ)
  | ind2 (j : ℕ)
  | data (bn : ℕ)
  deriving DecidableEq

/-- Where the pointers to blocks are. -/
def Node.parent (ilarg : Bool) : Node → Option (Node × ℕ)
  | .ind _ => none
  | .ind2 j => if ilarg then some (.ind 7, j) else none
  | .data bn =>
    if ilarg then
      if bn / 256 < 7 then some (.ind (bn / 256), bn % 256)
      else some (.ind2 (bn / 256 - 7), bn % 256)
    else none

def Node.rank : Node → ℕ
  | .ind _ => 0
  | .ind2 _ => 1
  | .data _ => 2

/-- The parent of a node is nearer to the root. -/
theorem Node.parent_rank {ilarg : Bool} {r q : Node} {k : ℕ} (h : r.parent ilarg = some (q, k)) :
    q.rank < r.rank := by
  cases r with
  | ind i => cases h
  | ind2 j =>
    obtain ⟨-, h⟩ := Option.ite_none_right_eq_some.mp h
    cases h
    exact Nat.zero_lt_one
  | data bn =>
    obtain ⟨-, h⟩ := Option.ite_none_right_eq_some.mp h
    split at h
    · cases h
      exact Nat.zero_lt_two
    · cases h
      exact Nat.one_lt_two

/-- Different nodes have different places. -/
theorem Node.parent_inj {ilarg : Bool} {r r' : Node} {x : Node × ℕ} (h : r.parent ilarg = some x)
    (h' : r'.parent ilarg = some x) : r = r' := by
  cases r with
  | ind i => cases h
  -- the parent of `ind2 j` is the last of the eight blocks
  | ind2 j =>
    obtain ⟨hl, h⟩ := Option.ite_none_right_eq_some.mp h
    cases h
    cases r' with
    | ind i => cases h'
    | ind2 j' =>
      obtain ⟨-, h'⟩ := Option.ite_none_right_eq_some.mp h'
      cases h'
      rfl
    | data bn' =>
      obtain ⟨-, h'⟩ := Option.ite_none_right_eq_some.mp h'
      split at h'
      · next hlt =>
        have heq := congrArg Prod.fst (Option.some.inj h')
        simp only [Node.ind.injEq] at heq
        omega
      · cases h'
  | data bn =>
    obtain ⟨hl, h⟩ := Option.ite_none_right_eq_some.mp h
    cases r' with
    | ind i => cases h'
    | ind2 j' =>
      obtain ⟨-, h'⟩ := Option.ite_none_right_eq_some.mp h'
      rw [← h'] at h
      split at h
      · next hlt =>
        have heq := congrArg Prod.fst (Option.some.inj h)
        simp only [Node.ind.injEq] at heq
        omega
      · cases h
    | data bn' =>
      obtain ⟨-, h'⟩ := Option.ite_none_right_eq_some.mp h'
      rw [← h'] at h
      -- both are below the same block: the indices agree
      have hbn : bn = bn' := by
        split at h <;> split at h <;>
        · have heq := Option.some.inj h
          simp only [Prod.mk.injEq, Node.ind.injEq, Node.ind2.injEq, reduceCtorEq, false_and] at heq
          try omega
      rw [hbn]

/-- Data blocks have no pointers. -/
theorem Node.parent_ne_data {ilarg : Bool} {r q : Node} {k : ℕ}
    (h : r.parent ilarg = some (q, k)) (bn : ℕ) : q ≠ .data bn := by
  rintro rfl
  have hlt := parent_rank h
  cases r <;> simp [rank] at hlt

/-- The shape of a file. -/
def Node.shape (ilarg : Bool) : TreeShape Node :=
  ⟨Node.parent ilarg, Node.rank, parent_rank, parent_inj⟩

namespace FileDev

/-- The pointers in the inode. -/
def top (s : FileDev) : Node → BitVec 16
  | .ind i => if s.ilarg ∧ i < 8 then s.i_addr i else 0
  | .ind2 _ => 0
  | .data bn => if s.ilarg = false ∧ bn < 8 then s.i_addr bn else 0

def words (s : FileDev) (b : BitVec 16) (k : ℕ) : BitVec 16 := (s.disk b).word k

/-- The pointer in a place of a block, if there is the block. -/
def deref (s : FileDev) (b : BitVec 16) (k : ℕ) : BitVec 16 := if b = 0 then 0 else s.words b k

/-- The block in a place, or 0. -/
def node (s : FileDev) : Node → BitVec 16
  | .ind i => if s.ilarg ∧ i < 8 then s.i_addr i else 0
  | .ind2 j => if s.ilarg then s.deref (s.i_addr 7) j else 0
  | .data bn =>
    if s.ilarg then
      if bn / 256 < 7 then s.deref (s.i_addr (bn / 256)) (bn % 256)
      else s.deref (s.deref (s.i_addr 7) (bn / 256 - 7)) (bn % 256)
    else if bn < 8 then s.i_addr bn else 0

theorem isTree (s : FileDev) : IsTree (Node.shape s.ilarg) s.top s.words s.node := by
  intro r
  cases hl : s.ilarg with
  | false => cases r <;> simp [TreeShape.follow, Node.shape, Node.parent, node, top, hl]
  | true =>
    cases r with
    | ind i => simp [TreeShape.follow, Node.shape, Node.parent, node, top, hl]
    | ind2 j => simp [TreeShape.follow, Node.shape, Node.parent, node, hl, deref]
    | data bn =>
      by_cases hbn : bn / 256 < 7
      · have h8 : bn / 256 < 8 := by omega
        simp [TreeShape.follow, Node.shape, Node.parent, node, hl, deref, hbn, h8]
      · simp [TreeShape.follow, Node.shape, Node.parent, node, hl, deref, hbn]

/-- No block is in two places of the file and the free list. -/
structure Inv (s : FileDev) : Prop where
  distinct : NodesDistinct s.node
  nodup : s.free.Nodup
  zero : 0 ∉ s.free
  fresh : ∀ r, s.node r ∉ s.free

end FileDev

/-! ## Words -/

namespace Block

@[simp] theorem word_zero (k : ℕ) : zero.word k = 0 := by
  simp [word, zero]

/-- The word that was set. -/
theorem word_setWord_self (b : Block) (k : ℕ) (w : BitVec 16) : (b.setWord k w).word k = w := by
  have hne : 2 * k ≠ 2 * k + 1 := by omega
  simp only [word, setWord, update_self, update_of_ne hne]
  ext i hi
  simp only [BitVec.getElem_append, BitVec.getElem_setWidth, BitVec.getLsbD_ushiftRight]
  split
  · exact BitVec.getLsbD_eq_getElem hi
  · next hge =>
    rw [Nat.add_sub_cancel' (not_lt.mp hge)]
    exact BitVec.getLsbD_eq_getElem hi

/-- The other words stay. -/
theorem word_setWord_of_ne (b : Block) {k k' : ℕ} (w : BitVec 16) (h : k' ≠ k) :
    (b.setWord k w).word k' = b.word k' := by
  simp only [word, setWord]
  rw [update_of_ne (by omega), update_of_ne (by omega), update_of_ne (by omega),
    update_of_ne (by omega)]

/-- Words that are set one after another. -/
theorem word_foldl_setWord (a : ℕ → BitVec 16) (n : ℕ) (b : Block) (k : ℕ) :
    ((List.range n).foldl (fun b k => b.setWord k (a k)) b).word k =
      if k < n then a k else b.word k := by
  induction n with
  | zero => simp
  | succ n ih =>
    rw [List.range_succ, List.foldl_append, List.foldl_cons, List.foldl_nil]
    rcases eq_or_ne k n with rfl | hk
    · rw [word_setWord_self, if_pos (Nat.lt_succ_self k)]
    · rw [word_setWord_of_ne _ _ hk, ih]
      have hiff : k < n ↔ k < n + 1 := by omega
      simp only [hiff]

/-- The addresses become the words of a block. -/
theorem word_ofAddr (a : ℕ → BitVec 16) (k : ℕ) : (ofAddr a).word k = if k < 8 then a k else 0 := by
  rw [ofAddr, word_foldl_setWord, word_zero]

end Block

namespace FileDev

variable {s s' : FileDev} {b : BitVec 16}

/-! ## Fetching a pointer -/

/-- The allocated block is cleared and nowhere in the file, and nothing else changes. -/
structure Allocated (s : FileDev) (b : BitVec 16) (s' : FileDev) : Prop where
  free : s.free = b :: s'.free
  disk : s'.disk = update s.disk b Block.zero
  ilarg : s'.ilarg = s.ilarg
  i_addr : s'.i_addr = s.i_addr
  i_size : s'.i_size = s.i_size

theorem alloc_eq (h : s.free ≠ []) : ∃ b s', s.alloc = (b, s') ∧ Allocated s b s' := by
  obtain ⟨b, bs, hb⟩ := List.exists_cons_of_ne_nil h
  exact ⟨b, { s with free := bs, disk := update s.disk b Block.zero }, by simp only [alloc, hb],
    hb, rfl, rfl, rfl, rfl⟩

theorem alloc_nil (h : s.free = []) : s.alloc = (0, s) := by
  simp only [alloc, h]

theorem Inv.alloc_ne (h : s.Inv) (ha : Allocated s b s') : b ≠ 0 := by
  rintro rfl
  exact h.zero (ha.free ▸ List.mem_cons_self)

theorem Inv.node_ne (h : s.Inv) (ha : Allocated s b s') (r : Node) : s.node r ≠ b :=
  fun hr => h.fresh r (hr ▸ ha.free ▸ List.mem_cons_self)

theorem Allocated.top (ha : Allocated s b s') : s'.top = s.top := by
  funext r
  cases r <;> simp only [FileDev.top, ha.ilarg, ha.i_addr]

theorem Allocated.words_self (ha : Allocated s b s') (k : ℕ) : s'.words b k = 0 := by
  simp only [words, ha.disk, update_self, Block.word_zero]

/-- The other blocks stay. -/
theorem Allocated.words_of_ne (ha : Allocated s b s') {c : BitVec 16} (hc : c ≠ b) (k : ℕ) :
    s'.words c k = s.words c k := by
  simp only [words, ha.disk, update_of_ne hc]

/-- The tree does not know about the allocated block. -/
theorem Inv.isTree_alloc (h : s.Inv) (ha : Allocated s b s') :
    IsTree (Node.shape s.ilarg) s.top s'.words s.node :=
  s.isTree.congr fun _ q k _ _ => ha.words_of_ne (h.node_ne ha q) k

/-- What a place is found to hold: a block, in which nothing is written yet if it is new. Only
indirect blocks of the file and the new block are written. -/
structure Found (s : FileDev) (r : Node) (x : BitVec 16 × FileDev) : Prop where
  ne : x.1 ≠ 0
  inv : x.2.Inv
  node : x.2.node = update s.node r x.1
  ilarg : x.2.ilarg = s.ilarg
  i_size : x.2.i_size = s.i_size
  free : s.node r ≠ 0 ∧ x.2.free = s.free ∨ s.node r = 0 ∧ s.free = x.1 :: x.2.free
  disk : ∀ c, c ∉ s.free → (∀ q, (∀ bn, q ≠ .data bn) → s.node q ≠ c) → x.2.disk c = s.disk c
  old : s.node r ≠ 0 → s.node r = x.1
  new : s.node r = 0 → x.2.disk x.1 = Block.zero

/-- A node that is there is found. -/
theorem Inv.found_old (h : s.Inv) {r : Node} (h0 : s.node r ≠ 0) : Found s r (s.node r, s) :=
  ⟨h0, h, (update_eq_self r s.node).symm, rfl, rfl, .inl ⟨h0, rfl⟩, fun _ _ _ => rfl, fun _ => rfl,
    fun hr => absurd hr h0⟩

/-- At most one block is allocated for a node. -/
theorem Found.free_length {r : Node} {x : BitVec 16 × FileDev} (h : Found s r x) :
    s.free.length ≤ x.2.free.length + 1 := by
  rcases h.free with ⟨-, hfree⟩ | ⟨-, hfree⟩
  · rw [hfree]
    exact Nat.le_succ _
  · rw [hfree, List.length_cons]

/-- Data is not written. -/
theorem Found.disk_data (hs : s.Inv) {r : Node} {x : BitVec 16 × FileDev} (h : Found s r x) {bn : ℕ}
    (h0 : s.node (.data bn) ≠ 0) : x.2.disk (s.node (.data bn)) = s.disk (s.node (.data bn)) :=
  h.disk _ (hs.fresh _) fun _ hq hsame => hq bn (hs.distinct _ _ h0 hsame.symm).symm

/-- The allocated block is in one place now. -/
theorem Inv.plant (h : s.Inv) {r : Node} {s'' : FileDev} (ha : Allocated s b s')
    (hfree : s''.free = s'.free) (hnode : s''.node = update s.node r b) : s''.Inv := by
  obtain ⟨hnotMem, hnodup⟩ := List.nodup_cons.mp (ha.free ▸ h.nodup)
  refine ⟨?_, ?_, ?_, fun r' => ?_⟩
  · rw [hnode]
    exact h.distinct.plant (h.node_ne ha)
  · rw [hfree]
    exact hnodup
  · rw [hfree]
    exact fun hzero => h.zero (ha.free ▸ List.mem_cons_of_mem b hzero)
  · rw [hnode, hfree]
    rcases eq_or_ne r' r with rfl | hr'
    · rw [update_self]
      exact hnotMem
    · rw [update_of_ne hr']
      exact fun hmem => h.fresh r' (ha.free ▸ List.mem_cons_of_mem b hmem)

/-- A new block in its place. `s''` is the file when the pointer is stored. -/
theorem Inv.found_new (h : s.Inv) {r : Node} {s'' : FileDev} (ha : Allocated s b s')
    (h0 : s.node r = 0) (hfree : s''.free = s'.free) (hilarg : s''.ilarg = s'.ilarg)
    (hsize : s''.i_size = s'.i_size) (hnode : s''.node = update s.node r b)
    (hdisk : ∀ c, (∀ q, (∀ bn, q ≠ .data bn) → s.node q ≠ c) → s''.disk c = s'.disk c) :
    Found s r (b, s'') := by
  refine ⟨h.alloc_ne ha, h.plant ha hfree hnode, hnode, hilarg.trans ha.ilarg,
    hsize.trans ha.i_size, .inr ⟨h0, ?_⟩, fun c hc hind => ?_, fun hr => absurd h0 hr, fun _ => ?_⟩
  · rw [hfree, ha.free]
  · have hcb : c ≠ b := by
      rintro rfl
      exact hc (ha.free ▸ List.mem_cons_self)
    rw [hdisk c hind, ha.disk, update_of_ne hcb]
  · rw [hdisk b fun q _ => h.node_ne ha q, ha.disk, update_self]

/-- The place in the inode. -/
theorem Inv.fetchAddr (h : s.Inv) {r : Node} {i : ℕ} (hi : i < 8)
    (hr : s.ilarg = true ∧ r = .ind i ∨ s.ilarg = false ∧ r = .data i) :
    Found s r (s.fetchAddr i) ∨ s.free = [] ∧ s.fetchAddr i = (0, s) := by
  have hnode : s.node r = s.i_addr i := by
    rcases hr with ⟨hl, rfl⟩ | ⟨hl, rfl⟩ <;> simp [node, hl, hi]
  have hparent : (Node.shape s.ilarg).parent r = none := by
    rcases hr with ⟨hl, rfl⟩ | ⟨hl, rfl⟩ <;> simp [Node.shape, Node.parent, hl]
  unfold FileDev.fetchAddr
  split
  · next hne =>
    rw [← hnode] at hne ⊢
    -- there is a block
    exact .inl (h.found_old hne)
  · next heq =>
    have h0 : s.node r = 0 := hnode.trans (not_not.mp heq)
    rcases eq_or_ne s.free [] with hnil | hfree
    · exact .inr ⟨hnil, by simp only [alloc_nil hnil, if_true]⟩
    -- a new block is planted at the top of the tree
    obtain ⟨b, s₁, halloc, ha⟩ := alloc_eq hfree
    have hb := h.alloc_ne ha
    simp only [halloc, if_neg hb]
    refine .inl (h.found_new ha h0 rfl rfl rfl ?_ fun _ _ => rfl)
    have htree := (h.isTree_alloc ha).plant_top hparent h0 hb ha.words_self
    have htop : FileDev.top { s₁ with i_addr := update s₁.i_addr i b } = update s.top r b := by
      have hl₁ := ha.ilarg
      funext q
      rcases eq_or_ne q r with rfl | hq
      · rw [update_self]
        rcases hr with ⟨hl, rfl⟩ | ⟨hl, rfl⟩ <;> simp [FileDev.top, ha.ilarg, hl, hi]
      · rw [update_of_ne hq, ← ha.top]
        rcases hr with ⟨hl, rfl⟩ | ⟨hl, rfl⟩ <;> cases q <;>
          simp_all [FileDev.top]
    refine IsTree.unique (isTree _) ?_
    rw [htop, ha.ilarg]
    exact htree

/-- The place in an indirect block. -/
theorem Inv.fetchWord (h : s.Inv) {r q : Node} {k : ℕ} (hq : s.node q ≠ 0)
    (hr : r.parent s.ilarg = some (q, k)) : Found s r (s.fetchWord (s.node q) k) ∨
      s.free = [] ∧ s.fetchWord (s.node q) k = (0, s) := by
  have hnode : s.node r = s.words (s.node q) k := by
    rw [s.isTree r, TreeShape.follow]
    simp only [Node.shape, hr, if_neg hq]
  unfold FileDev.fetchWord
  split
  · next hne =>
    have hne : s.node r ≠ 0 := hnode ▸ hne
    -- there is a block
    have hsame : (s.disk (s.node q)).word k = s.node r := hnode.symm
    rw [hsame]
    exact .inl (h.found_old hne)
  · next heq =>
    have h0 : s.node r = 0 := hnode.trans (not_not.mp heq)
    rcases eq_or_ne s.free [] with hnil | hfree
    · exact .inr ⟨hnil, by simp only [alloc_nil hnil, if_true]⟩
    -- a new block is planted below `q`
    obtain ⟨b, s₁, halloc, ha⟩ := alloc_eq hfree
    have hb := h.alloc_ne ha
    have hqb := h.node_ne ha q
    simp only [halloc, if_neg hb]
    refine .inl (h.found_new ha h0 rfl rfl rfl ?_ fun c hc => ?_)
    · have htop : ∀ d, FileDev.top { s₁ with disk := d } = s.top := fun _ => ha.top
      refine IsTree.unique (isTree _) ?_
      rw [htop, ha.ilarg]
      refine s.isTree.plant_word h.distinct hr hq h0 hb (fun k' => ?_) ?_ fun q' k' _ hne => ?_
      · rw [← ha.words_self k']
        simp only [words, update_of_ne hqb.symm]
      · simp only [words, update_self, Block.word_setWord_self]
      · rw [← ha.words_of_ne (h.node_ne ha q')]
        rcases eq_or_ne (s.node q') (s.node q) with hsame | hdiff
        · have hk := hne.resolve_left (not_not.mpr hsame)
          simp only [words, hsame, update_self, Block.word_setWord_of_ne _ _ hk]
        · simp only [words, update_of_ne hdiff]
    · exact update_of_ne (hc q (Node.parent_ne_data hr)).symm _ _

/-- New contents for a data block. -/
def putData (s : FileDev) (bn : BitVec 16) (b : Block) (i_size : BitVec 24) : FileDev :=
  { s with disk := update s.disk bn b, i_size := i_size }

/-- The pointers are not in data blocks. -/
theorem Inv.node_putData (h : s.Inv) {m : ℕ} (b : Block) (i_size : BitVec 24) :
    (s.putData (s.node (.data m)) b i_size).node = s.node := by
  have htop : (s.putData (s.node (.data m)) b i_size).top = s.top := rfl
  refine IsTree.unique (isTree _) ?_
  rw [htop]
  refine s.isTree.congr fun r q k hr hq => ?_
  have hne : s.node q ≠ s.node (.data m) :=
    fun hsame => Node.parent_ne_data hr m (h.distinct _ _ hq hsame)
  simp only [words, putData, update_of_ne hne]

/-- A data block is written. -/
theorem Inv.putData (h : s.Inv) {m : ℕ} (b : Block) (i_size : BitVec 24) :
    (s.putData (s.node (.data m)) b i_size).Inv := by
  have hnode := h.node_putData (m := m) b i_size
  refine ⟨?_, h.nodup, h.zero, ?_⟩
  · rw [hnode]
    exact h.distinct
  · rw [hnode]
    exact h.fresh

/-! ## `bmap` -/

/-- The byte at a position of the file, as `bread` of the block finds it. Where there is no block,
there is a zero. -/
def byte (s : FileDev) (pos : ℕ) : BitVec 8 :=
  if s.node (.data (pos / 512)) = 0 then 0 else s.disk (s.node (.data (pos / 512))) (pos % 512)

/-- The bytes of one block have changed. -/
theorem Inv.byte_putData (h : s.Inv) {m : ℕ} (h0 : s.node (.data m) ≠ 0) (b : Block)
    (i_size : BitVec 24) (pos : ℕ) : (s.putData (s.node (.data m)) b i_size).byte pos =
      if pos / 512 = m then b (pos % 512) else s.byte pos := by
  unfold byte
  rw [h.node_putData]
  split
  · next hnone =>
    rw [if_neg]
    rintro rfl
    exact h0 hnone
  · next hsome =>
    rcases eq_or_ne (pos / 512) m with rfl | hm
    · rw [if_pos rfl]
      exact congrFun (update_self ..) _
    · have hne : s.node (.data (pos / 512)) ≠ s.node (.data m) := fun hsame =>
        hm (by simpa using h.distinct _ _ hsome hsame)
      rw [if_neg hm]
      exact congrFun (update_of_ne hne ..) _

/-- Blocks have moved from the free list into the file, or not at all; no other block is written. -/
structure Grows (s s' : FileDev) : Prop where
  disk : ∀ c, c ≠ 0 → c ∉ s.free → (∀ r, s.node r ≠ c) → s'.disk c = s.disk c
  places : ∀ c, c ≠ 0 →
    ((c ∈ s'.free ∨ ∃ r, s'.node r = c) ↔ (c ∈ s.free ∨ ∃ r, s.node r = c))

/-- What `bmap` does for a block number: the block is there, and the file has the same bytes. At most
`n` blocks are allocated. -/
structure Mapped (s : FileDev) (bn : ℕ) (n : ℕ) (x : BitVec 16 × FileDev) : Prop where
  ne : x.1 ≠ 0
  inv : x.2.Inv
  node : x.2.node (.data bn) = x.1
  byte : x.2.byte = s.byte
  i_size : x.2.i_size = s.i_size
  free : s.free.length ≤ x.2.free.length + n
  grows : Grows s x.2

theorem Grows.trans {s'' : FileDev} (h : Grows s s') (h' : Grows s' s'') : Grows s s'' := by
  refine ⟨fun c h0 hfree hnode => ?_, fun c h0 => (h'.places c h0).trans (h.places c h0)⟩
  have hplaces := (h.places c h0).not.mpr (not_or.mpr ⟨hfree, not_exists.mpr hnode⟩)
  obtain ⟨hfree', hnode'⟩ := not_or.mp hplaces
  rw [h'.disk c h0 hfree' (not_exists.mp hnode'), h.disk c h0 hfree hnode]

/-- The first free block has become the block of a place. -/
theorem places_update {r : Node} (h0 : s.node r = 0) (hfree : s.free = b :: s'.free)
    (hnode : s'.node = update s.node r b) (c : BitVec 16) (hc : c ≠ 0) :
    (c ∈ s'.free ∨ ∃ q, s'.node q = c) ↔ (c ∈ s.free ∨ ∃ q, s.node q = c) := by
  rw [hfree, hnode, List.mem_cons]
  constructor
  · rintro (hmem | ⟨q, hq⟩)
    · exact .inl (.inr hmem)
    · rcases eq_or_ne q r with rfl | hqr
      · exact .inl (.inl ((update_self ..).symm.trans hq).symm)
      · exact .inr ⟨q, (update_of_ne hqr ..).symm.trans hq⟩
  · rintro ((rfl | hmem) | ⟨q, hq⟩)
    · exact .inr ⟨r, update_self ..⟩
    · exact .inl hmem
    · have hqr : q ≠ r := by
        rintro rfl
        exact hc (hq.symm.trans h0)
      exact .inr ⟨q, (update_of_ne hqr ..).trans hq⟩

/-- A block that is added keeps the others. -/
theorem Found.grows {r : Node} {x : BitVec 16 × FileDev} (h : Found s r x) : Grows s x.2 := by
  refine ⟨fun c _ hfree hnode => h.disk c hfree fun q _ => hnode q, ?_⟩
  rcases h.free with ⟨h0, hfree⟩ | ⟨h0, hfree⟩
  · have hnode : x.2.node = s.node := by rw [h.node, ← h.old h0, update_eq_self]
    intro c _
    rw [hfree, hnode]
  · exact places_update h0 hfree h.node

/-- A block more, or none, in the tree: the bytes are the same. -/
theorem Found.byte (hs : s.Inv) {r : Node} {x : BitVec 16 × FileDev} (h : Found s r x) :
    x.2.byte = s.byte := by
  funext pos
  unfold FileDev.byte
  rw [h.node]
  rcases eq_or_ne (.data (pos / 512)) r with rfl | hr
  · rw [update_self, if_neg h.ne]
    by_cases h0 : s.node (.data (pos / 512)) = 0
    · rw [if_pos h0, h.new h0]
      rfl
    · rw [if_neg h0, ← h.old h0, h.disk_data hs h0]
  · rw [update_of_ne hr]
    split
    · rfl
    · next h0 => rw [h.disk_data hs h0]

/-- The file has more blocks now, or the same, and those that it had are in their places. -/
structure Extends (s s' : FileDev) : Prop where
  inv : s'.Inv
  node : ∀ r, s.node r ≠ 0 → s'.node r = s.node r
  grows : Grows s s'

theorem Extends.refl (h : s.Inv) : Extends s s :=
  ⟨h, fun _ _ => rfl, fun _ _ _ _ => rfl, fun _ _ => Iff.rfl⟩

/-- Blocks are added one after another. -/
theorem Extends.trans {s'' : FileDev} (h : Extends s s') (h' : Extends s' s'') : Extends s s'' := by
  refine ⟨h'.inv, fun r h0 => ?_, h.grows.trans h'.grows⟩
  rw [h'.node r (by rwa [h.node r h0]), h.node r h0]

/-- A block is added to the file. -/
theorem Found.extends {r : Node} {x : BitVec 16 × FileDev} (h : Found s r x) : Extends s x.2 := by
  refine ⟨h.inv, fun r' h0 => ?_, h.grows⟩
  rw [h.node]
  rcases eq_or_ne r' r with rfl | hr'
  · rw [update_self, h.old h0]
  · rw [update_of_ne hr']

/-- The node has the block that is returned. -/
theorem Found.node_self {r : Node} {x : BitVec 16 × FileDev} (h : Found s r x) : x.2.node r = x.1 := by
  rw [h.node, update_self]

/-- The block of a data node is what `bmap` is to return. -/
theorem Found.mapped (hs : s.Inv) {bn : ℕ} {x : BitVec 16 × FileDev} (h : Found s (.data bn) x) :
    Mapped s bn 1 x :=
  ⟨h.ne, h.inv, h.node_self, h.byte hs, h.i_size, h.free_length, h.grows⟩

/-- What is looked up after a step that keeps the bytes. -/
theorem Mapped.after {bn n m : ℕ} {x : BitVec 16 × FileDev} (h : Mapped s' bn n x)
    (hbyte : s'.byte = s.byte) (hsize : s'.i_size = s.i_size)
    (hfree : s.free.length ≤ s'.free.length + m) (hgrows : Grows s s') : Mapped s bn (n + m) x :=
  ⟨h.ne, h.inv, h.node, h.byte.trans hbyte, h.i_size.trans hsize, by have := h.free; omega,
    hgrows.trans h.grows⟩

/-- More blocks may have been used. -/
theorem Mapped.mono {bn n m : ℕ} {x : BitVec 16 × FileDev} (h : Mapped s bn n x) (hm : n ≤ m) :
    Mapped s bn m x :=
  ⟨h.ne, h.inv, h.node, h.byte, h.i_size, h.free.trans (Nat.add_le_add_left hm _), h.grows⟩

/-- There is the block, or there were less than `n` free blocks and `bmap` returns 0. -/
def MappedOrFull (s : FileDev) (bn : ℕ) (n : ℕ) (x : BitVec 16 × FileDev) : Prop :=
  Extends s x.2 ∧ (Mapped s bn n x ∨ s.free.length < n ∧ x.1 = 0)

/-- With enough free blocks the list does not run out. -/
theorem length_of_nil {n : ℕ} (hnil : s'.free = []) (hfree : s.free.length ≤ s'.free.length + n) :
    s.free.length < n + 1 := by
  rw [hnil, List.length_nil] at hfree
  omega

/-- `bmap` of a large file, with its indirect blocks. -/
theorem Inv.large (h : s.Inv) (hl : s.ilarg = true) {bn : ℕ} (hbn : bn < 32768) :
    MappedOrFull s bn 3 (s.large bn) := by
  have hroot' : ∀ i, i < 8 → Found s (.ind i) (s.fetchAddr i) ∨
      s.free = [] ∧ s.fetchAddr i = (0, s) := fun i hi => h.fetchAddr hi (.inl ⟨hl, rfl⟩)
  unfold FileDev.large
  simp only
  by_cases h7 : bn / 256 < 7
  · -- One indirect block.
    have hi : (if bn / 2048 ≠ 0 then 7 else bn / 256) = bn / 256 := if_neg (by omega)
    have hroot := hroot' (bn / 256) (by omega)
    rw [hi]
    generalize s.fetchAddr (bn / 256) = x at hroot ⊢
    obtain ⟨bp, s₁⟩ := x
    rcases hroot with hroot | ⟨hnil, hzero⟩
    · have hl₁ : s₁.ilarg = true := hroot.ilarg.trans hl
      have hbp : s₁.node (.ind (bn / 256)) = bp := hroot.node_self
      have hleaf := hroot.inv.fetchWord (r := .data bn) (q := .ind (bn / 256)) (k := bn % 256)
        (hbp ▸ hroot.ne) (by simp [Node.parent, hl₁, h7])
      rw [hbp] at hleaf
      rw [if_neg hroot.ne, if_neg (show ¬ bn / 256 = 7 by omega)]
      rcases hleaf with hleaf | ⟨hnil, hzero⟩
      · exact ⟨hroot.extends.trans hleaf.extends, .inl (((hleaf.mapped hroot.inv).after
          (hroot.byte h) hroot.i_size hroot.free_length hroot.grows).mono (by omega))⟩
      · rw [hzero]
        exact ⟨hroot.extends,
          .inr ⟨(length_of_nil hnil hroot.free_length).trans (by omega), rfl⟩⟩
    · obtain ⟨rfl, rfl⟩ := Prod.mk.inj hzero
      exact ⟨.refl h, .inr ⟨by rw [hnil]; exact Nat.zero_lt_succ _, rfl⟩⟩
  · -- An indirect block of indirect blocks.
    have hi : (if bn / 2048 ≠ 0 then 7 else bn / 256) = 7 := by
      split <;> omega
    have hj : bn / 256 % 256 - 7 = bn / 256 - 7 := by omega
    have hroot := hroot' 7 (by omega)
    rw [hi, hj]
    generalize s.fetchAddr 7 = x at hroot ⊢
    obtain ⟨bp, s₁⟩ := x
    rcases hroot with hroot | ⟨hnil, hzero⟩
    · have hl₁ : s₁.ilarg = true := hroot.ilarg.trans hl
      have hbp : s₁.node (.ind 7) = bp := hroot.node_self
      have hmid := hroot.inv.fetchWord (r := .ind2 (bn / 256 - 7)) (q := .ind 7)
        (k := bn / 256 - 7) (hbp ▸ hroot.ne) (by simp [Node.parent, hl₁])
      rw [hbp] at hmid
      simp only [if_neg hroot.ne, if_true]
      generalize s₁.fetchWord bp (bn / 256 - 7) = y at hmid ⊢
      obtain ⟨bp', s₂⟩ := y
      rcases hmid with hmid | ⟨hnil, hzero⟩
      · have hl₂ : s₂.ilarg = true := hmid.ilarg.trans hl₁
        have hbp' : s₂.node (.ind2 (bn / 256 - 7)) = bp' := hmid.node_self
        have hfree₂ : s.free.length ≤ s₂.free.length + 2 := by
          have h₁ := hroot.free_length
          have h₂ := hmid.free_length
          simp only at h₁ h₂
          omega
        have hleaf := hmid.inv.fetchWord (r := .data bn) (q := .ind2 (bn / 256 - 7))
          (k := bn % 256) (hbp' ▸ hmid.ne) (by simp [Node.parent, hl₂, h7])
        rw [hbp'] at hleaf
        rw [if_neg hmid.ne]
        rcases hleaf with hleaf | ⟨hnil, hzero⟩
        · exact ⟨(hroot.extends.trans hmid.extends).trans hleaf.extends, .inl
            ((hleaf.mapped hmid.inv).after ((hmid.byte hroot.inv).trans (hroot.byte h))
              (hmid.i_size.trans hroot.i_size) hfree₂ (hroot.grows.trans hmid.grows))⟩
        · rw [hzero]
          exact ⟨hroot.extends.trans hmid.extends, .inr ⟨length_of_nil hnil hfree₂, rfl⟩⟩
      · obtain ⟨rfl, rfl⟩ := Prod.mk.inj hzero
        exact ⟨hroot.extends,
          .inr ⟨(length_of_nil hnil hroot.free_length).trans (by omega), rfl⟩⟩
    · obtain ⟨rfl, rfl⟩ := Prod.mk.inj hzero
      exact ⟨.refl h, .inr ⟨by rw [hnil]; exact Nat.zero_lt_succ _, rfl⟩⟩

/-- The conversion puts the eight pointers one level deeper, and nothing else changes. -/
theorem Inv.toLarge (h : s.Inv) (hl : s.ilarg = false) (hfree : s.free ≠ []) :
    ∃ s', s.toLarge = (true, s') ∧ Extends s s' ∧ s'.ilarg = true ∧ s'.byte = s.byte ∧
      s'.i_size = s.i_size ∧ s.free.length ≤ s'.free.length + 1 := by
  obtain ⟨b, s₁, halloc, ha⟩ := alloc_eq hfree
  have hb := h.alloc_ne ha
  simp only [FileDev.toLarge, halloc, if_neg hb]
  refine ⟨_, rfl, ?_⟩
  generalize hs : ({ s₁ with
    ilarg := true
    i_addr := fun i => if i = 0 then b else 0
    disk := update s₁.disk b (Block.ofAddr s₁.i_addr) } : FileDev) = s'
  have hilarg : s'.ilarg = true := hs ▸ rfl
  have haddr : s'.i_addr = fun i => if i = 0 then b else 0 := hs ▸ rfl
  have hdisk : s'.disk = update s₁.disk b (Block.ofAddr s.i_addr) := by
    rw [← hs, ha.i_addr]
  -- the new indirect block is planted, and every data block keeps its place
  have hnode : s'.node = update s.node (.ind 0) b := by
    funext r
    cases r with
    | ind i =>
      rcases eq_or_ne i 0 with rfl | hi
      · simp [FileDev.node, hilarg, haddr]
      · simp [FileDev.node, hilarg, haddr, hi, hl]
    | ind2 j => simp [FileDev.node, hilarg, haddr, deref, hl]
    | data bn =>
      rw [update_of_ne (by simp)]
      by_cases hbn : bn / 256 = 0
      · have hmod : bn % 256 = bn := Nat.mod_eq_of_lt (by omega)
        -- the words of the new block are the old pointers
        have hword : s'.deref b bn = if bn < 8 then s.i_addr bn else 0 := by
          rw [deref, if_neg hb, words, hdisk, update_self, Block.word_ofAddr]
        simp [FileDev.node, hilarg, haddr, hbn, hl, hmod, hword]
      · have hge : ¬ bn < 8 := by omega
        simp [FileDev.node, hilarg, haddr, hbn, hl, deref, hge]
  have hdata : ∀ bn, s'.node (.data bn) = s.node (.data bn) := by
    intro bn
    rw [hnode, update_of_ne (by simp)]
  have hsize : s'.i_size = s₁.i_size := hs ▸ rfl
  have hfree' : s'.free = s₁.free := hs ▸ rfl
  refine ⟨⟨h.plant ha hfree' hnode, fun r h0 => ?_, ?_⟩, hilarg, ?_, hsize.trans ha.i_size, ?_⟩
  · rw [hnode, update_of_ne]
    rintro rfl
    exact h0 (by simp [FileDev.node, hl])
  · refine ⟨fun c _ hc _ => ?_, places_update (by simp [FileDev.node, hl]) ?_ hnode⟩
    · have hcb : c ≠ b := by
        rintro rfl
        exact hc (ha.free ▸ List.mem_cons_self)
      rw [hdisk, ha.disk, update_of_ne hcb, update_of_ne hcb]
    · rw [hfree', ha.free]
  · funext pos
    have hne := h.node_ne ha (.data (pos / 512))
    simp only [FileDev.byte, hdata, hdisk, ha.disk, update_of_ne hne]
  · rw [hfree', ha.free, List.length_cons]

/-- `bmap` finds or makes the block and keeps the bytes of the file, at least with four free
blocks. -/
theorem Inv.bmap (h : s.Inv) {bn : ℕ} (hbn : bn < 32768) : MappedOrFull s bn 4 (s.bmap bn) := by
  unfold FileDev.bmap
  split
  · next hl =>
    obtain ⟨hext, hmapped | ⟨hlt, hzero⟩⟩ := h.large hl hbn
    · exact ⟨hext, .inl (hmapped.mono (by omega))⟩
    · exact ⟨hext, .inr ⟨hlt.trans (by omega), hzero⟩⟩
  · next hl =>
    have hl : s.ilarg = false := by simpa using hl
    split
    · rcases eq_or_ne s.free [] with hnil | hne
      · simp only [FileDev.toLarge, alloc_nil hnil, if_true]
        exact ⟨.refl h, .inr ⟨by rw [hnil]; exact Nat.zero_lt_succ _, rfl⟩⟩
      · -- the file becomes large, and then the block is looked up
        obtain ⟨s', heq, hconv, hl', hbyte, hsize, hfree'⟩ := h.toLarge hl hne
        simp only [heq, if_true]
        obtain ⟨hext, hmapped | ⟨hlt, hzero⟩⟩ := hconv.inv.large hl' hbn
        · exact ⟨hconv.trans hext, .inl (hmapped.after hbyte hsize hfree' hconv.grows)⟩
        · exact ⟨hconv.trans hext, .inr ⟨by omega, hzero⟩⟩
    · next h8 =>
      -- a small file
      have hfetch : Found s (.data bn) (s.fetchAddr bn) ∨
          s.free = [] ∧ s.fetchAddr bn = (0, s) :=
        h.fetchAddr (by omega) (.inr ⟨hl, rfl⟩)
      rcases hfetch with hfound | ⟨hnil, hzero⟩
      · exact ⟨hfound.extends, .inl ((hfound.mapped h).mono (by omega))⟩
      · rw [hzero]
        exact ⟨.refl h, .inr ⟨by rw [hnil]; exact Nat.zero_lt_succ _, rfl⟩⟩

/-- With four free blocks `bmap` returns a block. -/
theorem Inv.bmap_mapped (h : s.Inv) (hfree : 4 ≤ s.free.length) {bn : ℕ} (hbn : bn < 32768) :
    Mapped s bn 4 (s.bmap bn) :=
  (h.bmap hbn).2.resolve_right fun hfull => absurd hfree (not_le.mpr hfull.1)

end FileDev

end UnixV6
