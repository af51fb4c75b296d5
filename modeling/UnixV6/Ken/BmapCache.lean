import UnixV6.Ken.Bmap

/-!
# `bmap` without space (`ken/subr.c` over the buffers of `dmr/bio.c`)

Of a buffer that `brelse` takes back only what is marked with `B_DELWRI` comes to the disk, and only
what is marked with `B_DONE` is not read again. `alloc` marks nothing. When all buffers have been given
up for other blocks, `bread` finds `settled`. A buffer that is given up on the way could have been given
up before.
-/

open Function

namespace UnixV6

/-- A buffer of a block; without flags and with anything in it if the block is not in the cache. -/
structure CoreBuf where
  data : Block
  b_done : Bool
  b_delwri : Bool

/-- A file, with the disk in `disk` and the buffers. -/
structure BufDev extends FileDev where
  core : BitVec 16 → CoreBuf

namespace BufDev

/-- `alloc`: a block in a cleared buffer, or 0. -/
def alloc (s : BufDev) : BitVec 16 × BufDev :=
  match s.free with
  | [] => (0, s)
  | b :: bs =>
    (b, { s with free := bs, core := update s.core b { s.core b with data := Block.zero } })

/-- The buffer of a block, read if it must be. -/
def bread (s : BufDev) (b : BitVec 16) : BufDev :=
  if (s.core b).b_done then s
  else { s with core := update s.core b { s.core b with data := s.disk b, b_done := true } }

def bdwrite (s : BufDev) (bp : BitVec 16) : BufDev :=
  { s with core := update s.core bp { s.core bp with b_done := true, b_delwri := true } }

/-- `B_BUSY` is off. -/
def brelse (s : BufDev) (_bp : BitVec 16) : BufDev := s

/-- `bap[k] = w`. -/
def store (s : BufDev) (bp : BitVec 16) (k : ℕ) (w : BitVec 16) : BufDev :=
  { s with core := update s.core bp { s.core bp with data := (s.core bp).data.setWord k w } }

/-- The small file algorithm. -/
def small (s : BufDev) (bn : ℕ) : BitVec 16 × BufDev :=
  if s.i_addr bn = 0 then
    let (bp, s) := s.alloc
    if bp = 0 then (0, s)
    else
      let s := s.bdwrite bp
      (bp, { s with i_addr := update s.i_addr bn bp })
  else (s.i_addr bn, s)

/-- Convert small to large. -/
def toLarge (s : BufDev) : Bool × BufDev :=
  let (bp, s) := s.alloc
  if bp = 0 then (false, s)
  else
    let s : BufDev := { s with
      core := update s.core bp { s.core bp with data := Block.ofAddr s.i_addr }
      i_addr := fun i => if i = 0 then bp else 0 }
    let s := s.bdwrite bp
    (true, { s with ilarg := true })

/-- The block in the inode, with its buffer. -/
def fetchRoot (s : BufDev) (i : ℕ) : BitVec 16 × BufDev :=
  if s.i_addr i = 0 then
    let (bp, s) := s.alloc
    if bp = 0 then (0, s) else (bp, { s with i_addr := update s.i_addr i bp })
  else (s.i_addr i, s.bread (s.i_addr i))

/-- "huge" fetch of double indirect block. -/
def fetchDouble (s : BufDev) (bp : BitVec 16) (k : ℕ) : BitVec 16 × BufDev :=
  let nb := (s.core bp).data.word k
  if nb = 0 then
    let (nbp, s) := s.alloc
    if nbp = 0 then (0, s.brelse bp) else (nbp, (s.store bp k nbp).bdwrite bp)
  else (nb, (s.brelse bp).bread nb)

/-- Normal indirect fetch. -/
def fetchIndirect (s : BufDev) (bp : BitVec 16) (k : ℕ) : BitVec 16 × BufDev :=
  let nb := (s.core bp).data.word k
  if nb = 0 then
    let (nbp, s) := s.alloc
    if nbp = 0 then (0, s.brelse bp) else (nbp, ((s.store bp k nbp).bdwrite nbp).bdwrite bp)
  else (nb, s.brelse bp)

/-- The large file algorithm. -/
def large (s : BufDev) (bn : ℕ) : BitVec 16 × BufDev :=
  let i := if bn / 2048 ≠ 0 then 7 else bn / 256
  let (bp, s) := s.fetchRoot i
  if bp = 0 then (0, s)
  else if i = 7 then
    let (bp, s) := s.fetchDouble bp (bn / 256 % 256 - 7)
    if bp = 0 then (0, s) else s.fetchIndirect bp (bn % 256)
  else s.fetchIndirect bp (bn % 256)

def bmap (s : BufDev) (bn : ℕ) : BitVec 16 × BufDev :=
  if s.ilarg then s.large bn
  else if bn / 8 ≠ 0 then
    let (ok, s) := s.toLarge
    if ok then s.large bn else (0, s)
  else s.small bn

/-- What `bread` finds when the buffers have been given up. -/
def found (s : BufDev) (b : BitVec 16) : Block :=
  if (s.core b).b_delwri then (s.core b).data else s.disk b

def settled (s : BufDev) : FileDev := { s.toFileDev with disk := s.found }

/-- No buffer is busy: what is to be written has been read or made, and what is not is on the disk. -/
def Coherent (s : BufDev) : Prop :=
  ∀ b, ((s.core b).b_delwri = true → (s.core b).b_done = true) ∧
    ((s.core b).b_done = true → (s.core b).data = s.found b)

/-! ## With and without the buffers -/

/-- A file without buffers, `t`, does what `s` does. The buffers of the blocks in `new` are cleared
and in hand, and not marked. -/
structure Sim (s₀ s : BufDev) (t : FileDev) (new : List (BitVec 16)) : Prop where
  file : t = { s.toFileDev with disk := t.disk }
  disk : s.disk = s₀.disk
  done : ∀ c ∉ new, (s.core c).b_delwri = true → (s.core c).b_done = true
  data : ∀ c ∉ new, (s.core c).b_done = true → (s.core c).data = t.disk c
  found : ∀ c ∉ new, s.found c = t.disk c
  cleared : ∀ c ∈ new, (s.core c).data = Block.zero ∧ t.disk c = Block.zero ∧
    (s.core c).b_delwri = (s₀.core c).b_delwri
  free : ∀ c ∈ t.free, (s.core c).b_delwri = (s₀.core c).b_delwri

variable {s₀ s s' : BufDev} {t t' : FileDev} {new new' : List (BitVec 16)} {b bp : BitVec 16}

theorem Sim.of_coherent (h : s.Coherent) : Sim s s s.settled [] :=
  ⟨rfl, rfl, fun c _ => (h c).1, fun c _ => (h c).2, fun _ _ => rfl,
    fun _ hc => absurd hc List.not_mem_nil, fun _ _ => rfl⟩

theorem Sim.free_eq (h : Sim s₀ s t new) : s.free = t.free := by rw [h.file]

theorem Sim.i_addr_eq (h : Sim s₀ s t new) : s.i_addr = t.i_addr := by rw [h.file]

theorem Sim.ilarg_eq (h : Sim s₀ s t new) : s.ilarg = t.ilarg := by rw [h.file]

/-- The buffer in hand has the block. -/
theorem Sim.data_new (h : Sim s₀ s t new) (hb : b ∈ new) : (s.core b).data = t.disk b := by
  obtain ⟨hdata, hdisk, -⟩ := h.cleared b hb
  rw [hdata, hdisk]

theorem Sim.alloc_nil (h : Sim s₀ s t new) (hnil : t.free = []) : s.alloc = (0, s) := by
  have hfree := h.free_eq.trans hnil
  simp only [BufDev.alloc, hfree]

/-- One buffer, and perhaps its block, has changed. -/
theorem Sim.change (h : Sim s₀ s t new) {x : CoreBuf} {y : Block}
    (hfile : t' = { s'.toFileDev with disk := t'.disk }) (hdisk : s'.disk = s.disk)
    (hcore : s'.core = update s.core b x) (htdisk : t'.disk = update t.disk b y)
    (hnew : ∀ c, c ≠ b → (c ∈ new' ↔ c ∈ new))
    (hfree : ∀ c ∈ t'.free, c ∈ t.free ∧ (c = b → x.b_delwri = (s.core b).b_delwri))
    (hin : b ∈ new' → x.data = Block.zero ∧ y = Block.zero ∧ x.b_delwri = (s₀.core b).b_delwri)
    (hout : b ∉ new' → (x.b_delwri = true → x.b_done = true) ∧ (x.b_done = true → x.data = y) ∧
      (if x.b_delwri then x.data else s.disk b) = y) : Sim s₀ s' t' new' := by
  -- only the buffer of `b` has changed
  refine ⟨hfile, hdisk.trans h.disk, fun c hc => ?_, fun c hc => ?_, fun c hc => ?_, fun c hc => ?_,
    fun c hc => ?_⟩
  · rw [hcore]
    rcases eq_or_ne c b with rfl | hcb
    · rw [update_self]
      exact (hout hc).1
    · rw [update_of_ne hcb]
      exact h.done c ((hnew c hcb).not.mp hc)
  · rw [hcore, htdisk]
    rcases eq_or_ne c b with rfl | hcb
    · rw [update_self, update_self]
      exact (hout hc).2.1
    · rw [update_of_ne hcb, update_of_ne hcb]
      exact h.data c ((hnew c hcb).not.mp hc)
  · rw [BufDev.found, hcore, htdisk, hdisk]
    rcases eq_or_ne c b with rfl | hcb
    · rw [update_self, update_self]
      exact (hout hc).2.2
    · rw [update_of_ne hcb, update_of_ne hcb]
      exact h.found c ((hnew c hcb).not.mp hc)
  · rw [hcore, htdisk]
    rcases eq_or_ne c b with rfl | hcb
    · rw [update_self, update_self]
      exact hin hc
    · rw [update_of_ne hcb, update_of_ne hcb]
      exact h.cleared c ((hnew c hcb).mp hc)
  · obtain ⟨hold, hsame⟩ := hfree c hc
    rw [hcore]
    rcases eq_or_ne c b with rfl | hcb
    · rw [update_self, hsame rfl]
      exact h.free c hold
    · rw [update_of_ne hcb]
      exact h.free c hold

/-- Both allocate the same block. -/
theorem Sim.alloc_cons (h : Sim s₀ s t new) (ha : FileDev.Allocated t b t') :
    ∃ s', s.alloc = (b, s') ∧ Sim s₀ s' t' (b :: new) ∧ ∀ c, c ≠ b → s'.core c = s.core c := by
  have hfree := h.free_eq.trans ha.free
  refine ⟨{ s with
    free := t'.free
    core := update s.core b { s.core b with data := Block.zero } }, by simp only [BufDev.alloc, hfree],
    ?_, fun c hc => update_of_ne hc ..⟩
  refine h.change ?_ rfl rfl ha.disk (fun c hc => ?_) (fun c hc => ⟨?_, fun _ => rfl⟩)
    (fun _ => ?_) fun hb => absurd List.mem_cons_self hb
  · have hilarg := h.ilarg_eq
    have haddr := h.i_addr_eq
    have hsize : s.i_size = t.i_size := by rw [h.file]
    rw [hilarg, haddr, hsize, ← ha.ilarg, ← ha.i_addr, ← ha.i_size]
  · rw [List.mem_cons, or_iff_right hc]
  · exact ha.free ▸ List.mem_cons_of_mem b hc
  · exact ⟨rfl, rfl, h.free b (ha.free ▸ List.mem_cons_self)⟩

/-- Pointers in the inode. -/
theorem Sim.putAddr (h : Sim s₀ s t new) (a : ℕ → BitVec 16) :
    Sim s₀ { s with i_addr := a } { t with i_addr := a } new := by
  refine ⟨?_, h.disk, h.done, h.data, h.found, h.cleared, h.free⟩
  have hfile := h.file
  rw [hfile]

theorem Sim.putLarge (h : Sim s₀ s t new) :
    Sim s₀ { s with ilarg := true } { t with ilarg := true } new := by
  refine ⟨?_, h.disk, h.done, h.data, h.found, h.cleared, h.free⟩
  have hfile := h.file
  rw [hfile]

/-- A block that is read. -/
theorem Sim.bread (h : Sim s₀ s t new) (hb : b ∉ new) :
    Sim s₀ (s.bread b) t new ∧ ((s.bread b).core b).data = t.disk b := by
  unfold BufDev.bread
  split
  · next hdone => exact ⟨h, h.data b hb hdone⟩
  · next hdone =>
    have hdelwri : (s.core b).b_delwri = false := by
      by_contra hne
      exact hdone (h.done b hb (by simpa using hne))
    have hfound : s.disk b = t.disk b := by
      rw [← h.found b hb, BufDev.found, hdelwri]
      rfl
    refine ⟨h.change h.file rfl rfl (update_eq_self b t.disk).symm (fun _ _ => Iff.rfl)
      (fun c hc => ⟨hc, fun _ => rfl⟩) (fun hin => absurd hin hb) fun _ => ⟨fun _ => rfl,
        fun _ => hfound, ?_⟩, ?_⟩
    · rw [hdelwri]
      exact hfound
    · exact (congrArg CoreBuf.data (update_self ..)).trans hfound

/-- A block that is marked for writing. -/
theorem Sim.write (h : Sim s₀ s t new) {x : Block} (hfree : b ∉ t.free)
    (hnew : ∀ c, c ≠ b → (c ∈ new' ↔ c ∈ new)) (hb : b ∉ new') :
    Sim s₀ { s with core := update s.core b ⟨x, true, true⟩ }
      { t with disk := update t.disk b x } new' := by
  refine h.change ?_ rfl rfl rfl hnew (fun c hc => ⟨hc, ?_⟩) (fun hin => absurd hin hb)
    fun _ => ⟨fun _ => rfl, fun _ => rfl, rfl⟩
  · have hfile := h.file
    rw [hfile]
  · rintro rfl
    exact absurd hc hfree

theorem bdwrite_eq (s : BufDev) (bp : BitVec 16) :
    s.bdwrite bp = { s with core := update s.core bp ⟨(s.core bp).data, true, true⟩ } := rfl

/-- A word is stored in a buffer that is to be written later. -/
theorem bdwrite_store (s : BufDev) (bp : BitVec 16) (k : ℕ) (w : BitVec 16) :
    (s.store bp k w).bdwrite bp =
      { s with core := update s.core bp ⟨(s.core bp).data.setWord k w, true, true⟩ } := by
  simp [bdwrite, store]

/-! ## The steps of `bmap` -/

/-- The block in the inode is there. -/
theorem Sim.fetchRoot_old (h : Sim s₀ s t []) {i : ℕ} (h0 : t.i_addr i ≠ 0) :
    ∃ s', s.fetchRoot i = (t.i_addr i, s') ∧ t.fetchAddr i = (t.i_addr i, t) ∧ Sim s₀ s' t [] ∧
      (s'.core (t.i_addr i)).data = t.disk (t.i_addr i) := by
  obtain ⟨hsim, hdata⟩ := h.bread (b := t.i_addr i) List.not_mem_nil
  refine ⟨_, ?_, if_pos h0, hsim, hdata⟩
  rw [BufDev.fetchRoot, congrFun h.i_addr_eq i, if_neg h0]

/-- An indirect block is not there, and cannot be allocated. -/
theorem Sim.fetchRoot_nil (h : Sim s₀ s t []) {i : ℕ} (h0 : t.i_addr i = 0) (hnil : t.free = []) :
    s.fetchRoot i = (0, s) ∧ t.fetchAddr i = (0, t) := by
  rw [BufDev.fetchRoot, FileDev.fetchAddr, congrFun h.i_addr_eq i, h.alloc_nil hnil,
    FileDev.alloc_nil hnil]
  simp only [h0, ne_eq, not_true_eq_false, if_true, if_false, and_self]

/-- An indirect block is allocated. -/
theorem Sim.fetchRoot_new (h : Sim s₀ s t []) (hinv : t.Inv) {i : ℕ} (h0 : t.i_addr i = 0)
    (hne : t.free ≠ []) : ∃ b s' t', s.fetchRoot i = (b, s') ∧ t.fetchAddr i = (b, t') ∧
      t.free = b :: t'.free ∧ Sim s₀ s' t' [b] := by
  obtain ⟨b, t', halloc, ha⟩ := FileDev.alloc_eq hne
  obtain ⟨s', hs', hsim, -⟩ := h.alloc_cons ha
  have hb := hinv.alloc_ne ha
  refine ⟨b, { s' with i_addr := update s'.i_addr i b }, { t' with i_addr := update t'.i_addr i b },
    ?_, ?_, ha.free, ?_⟩
  · rw [BufDev.fetchRoot, congrFun h.i_addr_eq i, if_pos h0, hs']
    exact if_neg hb
  · rw [FileDev.fetchAddr, if_neg (not_not.mpr h0), halloc]
    exact if_neg hb
  · rw [hsim.i_addr_eq]
    exact hsim.putAddr _

/-- A word of the buffer in hand. -/
theorem word_eq (hdata : (s.core bp).data = t.disk bp) (k : ℕ) :
    (s.core bp).data.word k = t.words bp k := by
  rw [hdata]
  rfl

/-- A block is allocated for a word that was 0. -/
theorem fetchWord_new (halloc : t.alloc = (b, t')) (hb : b ≠ 0) {k : ℕ} (h0 : t.words bp k = 0) :
    t.fetchWord bp k = (b, { t' with disk := update t'.disk bp ((t'.disk bp).setWord k b) }) := by
  have h0 : (t.disk bp).word k = 0 := h0
  rw [FileDev.fetchWord, if_neg (not_not.mpr h0), halloc]
  exact if_neg hb

/-- A double indirect block is there. -/
theorem Sim.fetchDouble_old (h : Sim s₀ s t []) (hdata : (s.core bp).data = t.disk bp) {k : ℕ}
    (h0 : t.words bp k ≠ 0) : ∃ s', s.fetchDouble bp k = (t.words bp k, s') ∧
      t.fetchWord bp k = (t.words bp k, t) ∧ Sim s₀ s' t [] ∧
      (s'.core (t.words bp k)).data = t.disk (t.words bp k) := by
  obtain ⟨hsim, hdata'⟩ := h.bread (b := t.words bp k) List.not_mem_nil
  refine ⟨_, ?_, if_pos h0, hsim, hdata'⟩
  rw [BufDev.fetchDouble, word_eq hdata]
  exact if_neg h0

/-- A double indirect block is not there, and cannot be allocated. -/
theorem Sim.fetchDouble_nil (h : Sim s₀ s t new) (hdata : (s.core bp).data = t.disk bp) {k : ℕ}
    (h0 : t.words bp k = 0) (hnil : t.free = []) :
    s.fetchDouble bp k = (0, s) ∧ t.fetchWord bp k = (0, t) := by
  have h0' : (t.disk bp).word k = 0 := h0
  rw [BufDev.fetchDouble, FileDev.fetchWord, word_eq hdata, h.alloc_nil hnil, FileDev.alloc_nil hnil]
  simp only [h0, h0', ne_eq, not_true_eq_false, if_true, if_false, brelse, and_self]

/-- The indirect block is marked when the new block behind it is stored. -/
theorem Sim.fetchDouble_new (h : Sim s₀ s t new) (hinv : t.Inv) (hnew : new ⊆ [bp])
    (hdata : (s.core bp).data = t.disk bp) (hbp : bp ∉ t.free) {k : ℕ} (h0 : t.words bp k = 0)
    (hne : t.free ≠ []) : ∃ b s' t', s.fetchDouble bp k = (b, s') ∧ t.fetchWord bp k = (b, t') ∧
      t.free = b :: t'.free ∧ Sim s₀ s' t' [b] := by
  obtain ⟨b, t', halloc, ha⟩ := FileDev.alloc_eq hne
  obtain ⟨s', hs', hsim, hcore⟩ := h.alloc_cons ha
  have hb := hinv.alloc_ne ha
  -- the block allocated is not the indirect block
  have hbpb : bp ≠ b := by
    rintro rfl
    exact hbp (ha.free ▸ List.mem_cons_self)
  have hdisk : t'.disk bp = t.disk bp := by
    rw [ha.disk, update_of_ne hbpb]
  have hword := word_eq hdata k
  have hdata' : (s'.core bp).data = t'.disk bp := by
    rw [hcore bp hbpb, hdata, hdisk]
  refine ⟨b, (s'.store bp k b).bdwrite bp,
    { t' with disk := update t'.disk bp ((t'.disk bp).setWord k b) }, ?_,
    fetchWord_new halloc hb h0, ha.free, ?_⟩
  · rw [BufDev.fetchDouble, hword, if_pos h0, hs']
    exact if_neg hb
  · rw [bdwrite_store, hdata']
    refine hsim.write (fun hmem => hbp (ha.free ▸ List.mem_cons_of_mem b hmem)) (fun c hc => ?_)
      fun hmem => hbpb (List.mem_singleton.mp hmem)
    rw [List.mem_singleton, List.mem_cons, or_iff_left]
    exact fun hmem => hc (List.mem_singleton.mp (hnew hmem))

/-- The last step leaves a new block unmarked if there is no block for its pointer. -/
theorem Sim.fetchIndirect (h : Sim s₀ s t new) (hinv : t.Inv) (hnew : new ⊆ [bp])
    (hdata : (s.core bp).data = t.disk bp) (hbp : bp ∉ t.free) (k : ℕ) :
    (s.fetchIndirect bp k).1 = (t.fetchWord bp k).1 ∧
      Sim s₀ (s.fetchIndirect bp k).2 (t.fetchWord bp k).2
        (if t.words bp k = 0 ∧ t.free = [] then new else []) := by
  have hword := word_eq hdata k
  by_cases h0 : t.words bp k = 0
  · rcases eq_or_ne t.free [] with hnil | hne
    · have h0' : (t.disk bp).word k = 0 := h0
      have hx : s.fetchIndirect bp k = (0, s) := by
        rw [BufDev.fetchIndirect, hword, h.alloc_nil hnil, if_pos h0]
        exact if_pos rfl
      have hy : t.fetchWord bp k = (0, t) := by
        rw [FileDev.fetchWord, if_neg (not_not.mpr h0'), FileDev.alloc_nil hnil]
        exact if_pos rfl
      rw [hx, hy, if_pos ⟨h0, hnil⟩]
      exact ⟨rfl, h⟩
    · obtain ⟨b, t', halloc, ha⟩ := FileDev.alloc_eq hne
      obtain ⟨s', hs', hsim, hcore⟩ := h.alloc_cons ha
      have hb := hinv.alloc_ne ha
      have hbpb : bp ≠ b := by
        rintro rfl
        exact hbp (ha.free ▸ List.mem_cons_self)
      have hdisk : t'.disk bp = t.disk bp := by
        rw [ha.disk, update_of_ne hbpb]
      have hdata' : (s'.core bp).data = t'.disk bp := by
        rw [hcore bp hbpb, hdata, hdisk]
      have hx : s.fetchIndirect bp k = (b, ((s'.store bp k b).bdwrite b).bdwrite bp) := by
        rw [BufDev.fetchIndirect, hword, if_pos h0, hs']
        exact if_neg hb
      have hy := fetchWord_new halloc hb h0
      obtain ⟨hbfree, -⟩ := List.nodup_cons.mp (ha.free ▸ hinv.nodup)
      have hbnew : b ∉ new := fun hmem => hbpb (List.mem_singleton.mp (hnew hmem)).symm
      -- The new block is marked, then the indirect block.
      have hleaf : Sim s₀ { s' with core := update s'.core b ⟨t'.disk b, true, true⟩ } t' new := by
        have hwrite : Sim s₀ { s' with core := update s'.core b ⟨t'.disk b, true, true⟩ }
            { t' with disk := update t'.disk b (t'.disk b) } new :=
          hsim.write hbfree (fun c hc => (List.mem_cons.trans (or_iff_right hc)).symm) hbnew
        rwa [update_eq_self] at hwrite
      have hstate : ((s'.store bp k b).bdwrite b).bdwrite bp = { s' with
          core := update (update s'.core b ⟨t'.disk b, true, true⟩) bp
            ⟨(t'.disk bp).setWord k b, true, true⟩ } := by
        rw [← hdata', ← hsim.data_new List.mem_cons_self]
        simp only [bdwrite, store, update_self, update_of_ne hbpb, update_of_ne hbpb.symm]
        rw [update_comm hbpb, update_idem]
      rw [hx, hy, if_neg fun hand => hne hand.2, hstate]
      refine ⟨rfl, hleaf.write (fun hmem => hbp (ha.free ▸ List.mem_cons_of_mem b hmem))
        (fun c hc => ?_) List.not_mem_nil⟩
      exact iff_of_false List.not_mem_nil fun hmem => hc (List.mem_singleton.mp (hnew hmem))
  · have hnil : new = [] := by
      refine List.eq_nil_iff_forall_not_mem.mpr fun c hc => h0 ?_
      obtain rfl := List.mem_singleton.mp (hnew hc)
      obtain ⟨-, hzero, -⟩ := h.cleared c hc
      rw [FileDev.words, hzero, Block.word_zero]
    subst hnil
    have hx : s.fetchIndirect bp k = (t.words bp k, s) := by
      rw [BufDev.fetchIndirect, hword]
      exact if_neg h0
    have hy : t.fetchWord bp k = (t.words bp k, t) := if_pos h0
    rw [hx, hy, if_neg fun hand => h0 hand.1]
    exact ⟨rfl, h⟩

/-- The last step behind a new block. -/
theorem Sim.fetchIndirect_new (h : Sim s₀ s t [b]) (hinv : t.Inv) (hb : b ∉ t.free) (k : ℕ) :
    (s.fetchIndirect b k).1 = (t.fetchWord b k).1 ∧
      Sim s₀ (s.fetchIndirect b k).2 (t.fetchWord b k).2 (if t.free = [] then [b] else []) := by
  have hword : t.words b k = 0 := by
    obtain ⟨-, hzero, -⟩ := h.cleared b (List.mem_singleton_self b)
    rw [FileDev.words, hzero, Block.word_zero]
  obtain ⟨heq, hsim⟩ :=
    h.fetchIndirect hinv (List.Subset.refl _) (h.data_new (List.mem_singleton_self b)) hb k
  refine ⟨heq, ?_⟩
  simpa only [hword, true_and] using hsim

/-- The block of a word is fetched. -/
theorem Sim.fetchIndirect_old (h : Sim s₀ s t []) (hinv : t.Inv)
    (hdata : (s.core bp).data = t.disk bp) (hbp : bp ∉ t.free) (k : ℕ) :
    (s.fetchIndirect bp k).1 = (t.fetchWord bp k).1 ∧
      Sim s₀ (s.fetchIndirect bp k).2 (t.fetchWord bp k).2 [] := by
  obtain ⟨heq, hsim⟩ := h.fetchIndirect hinv (List.nil_subset _) hdata hbp k
  exact ⟨heq, by simpa only [ite_self] using hsim⟩

end BufDev

/-! ## The block that is lost -/

namespace FileDev

/-- The blocks that a large file needs for a block number, in the order in which they are allocated:
whether each of them is an indirect block that the next one goes into. A small file has its first
indirect block from the conversion. -/
def largeNeeds (t : FileDev) (bn : ℕ) : List Bool :=
  (if (t.ilarg = true ∨ 256 ≤ bn) ∧ t.node (.ind (min (bn / 256) 7)) = 0 then [true] else []) ++
  (if 7 ≤ bn / 256 ∧ t.node (.ind2 (bn / 256 - 7)) = 0 then [true] else []) ++
  if t.node (.data bn) = 0 then [false] else []

/-- The blocks that `bmap` needs for a block number. -/
def needs (t : FileDev) (bn : ℕ) : List Bool :=
  if t.ilarg then t.largeNeeds bn
  else if bn < 8 then (if t.node (.data bn) = 0 then [false] else [])
  else false :: t.largeNeeds bn

/-- The last free block, if it becomes an indirect block that nothing goes into. -/
def lost : List Bool → List (BitVec 16) → List (BitVec 16)
  | new :: _, [b] => if new then [b] else []
  | _ :: ns, _ :: b :: bs => lost ns (b :: bs)
  | _, _ => []

@[simp] theorem lost_nil (ns : List Bool) : lost ns [] = [] := by
  cases ns <;> rfl

theorem lost_false (bs : List (BitVec 16)) : lost [false] bs = [] := by
  rcases bs with _ | ⟨b, _ | ⟨c, bs⟩⟩ <;> simp [lost]

/-- Only the last block is needed. -/
theorem lost_leaf (p : Prop) [Decidable p] (bs : List (BitVec 16)) :
    lost (if p then [false] else []) bs = [] := by
  split
  · exact lost_false bs
  · cases bs <;> rfl

/-- An indirect block is lost if no free block follows it. -/
theorem lost_indirect (ns : List Bool) (b : BitVec 16) (bs : List (BitVec 16)) :
    lost (true :: ns) (b :: bs) = if bs = [] then [b] else lost ns bs := by
  cases bs <;> simp [lost]

/-- A block that holds no addresses is not lost. -/
theorem lost_other (ns : List Bool) (b : BitVec 16) (bs : List (BitVec 16)) :
    lost (false :: ns) (b :: bs) = lost ns bs := by
  cases bs <;> simp [lost]

end FileDev

/-- Every word of the block in a place is a place. -/
def Node.HasWords (q : Node) : Prop := ∀ k < 256, ∃ r : Node, r.parent true = some (q, k)

theorem Node.hasWords_ind {i : ℕ} (hi : i < 8) : (Node.ind i).HasWords := by
  intro k hk
  by_cases h7 : i < 7
  · have hdiv : (256 * i + k) / 256 = i := by omega
    have hmod : (256 * i + k) % 256 = k := by omega
    exact ⟨.data (256 * i + k), by simp [Node.parent, hdiv, hmod, h7]⟩
  · obtain rfl : i = 7 := by omega
    exact ⟨.ind2 k, rfl⟩

theorem Node.hasWords_ind2 (j : ℕ) : (Node.ind2 j).HasWords := by
  intro k hk
  have hdiv : (256 * (j + 7) + k) / 256 = j + 7 := by omega
  have hmod : (256 * (j + 7) + k) % 256 = k := by omega
  exact ⟨.data (256 * (j + 7) + k), by simp [Node.parent, hdiv, hmod]⟩

namespace BufDev

variable {s₀ s s' : BufDev} {t t' : FileDev} {new new' : List (BitVec 16)} {b bp : BitVec 16}

/-- What `bmap` over the buffers has to do with `bmap` without them. -/
structure Refines (s₀ : BufDev) (x : BitVec 16 × BufDev) (y : BitVec 16 × FileDev)
    (new : List (BitVec 16)) : Prop where
  ret : x.1 = y.1
  sim : Sim s₀ x.2 y.2 new
  /-- The lost block is in the tree. -/
  place : ∀ c ∈ new, y.2.ilarg = true ∧ ∃ q : Node, q.HasWords ∧ y.2.node q = c

theorem Sim.refines (h : Sim s₀ s t []) (b : BitVec 16) : Refines s₀ (b, s) (b, t) [] :=
  ⟨rfl, h, fun _ hc => absurd hc List.not_mem_nil⟩

/-- The last step behind a block of the tree. -/
theorem Sim.refines_old (h : Sim s₀ s t []) (hinv : t.Inv) {q : Node}
    (hdata : (s.core (t.node q)).data = t.disk (t.node q)) (k : ℕ) :
    Refines s₀ (s.fetchIndirect (t.node q) k) (t.fetchWord (t.node q) k) [] := by
  obtain ⟨heq, hsim⟩ := h.fetchIndirect_old hinv hdata (hinv.fresh q) k
  exact ⟨heq, hsim, fun _ hc => absurd hc List.not_mem_nil⟩

/-- The last step behind a new block. -/
theorem Sim.refines_new {q r : Node} (h : Sim s₀ s t [t.node q]) (hinv : t.Inv)
    (hl : t.ilarg = true) (h0 : t.node q ≠ 0) (hq : q.HasWords) {k : ℕ}
    (hr : r.parent t.ilarg = some (q, k)) :
    Refines s₀ (s.fetchIndirect (t.node q) k) (t.fetchWord (t.node q) k)
      (if t.free = [] then [t.node q] else []) := by
  obtain ⟨heq, hsim⟩ := h.fetchIndirect_new hinv (hinv.fresh q) k
  refine ⟨heq, hsim, fun c hc => ?_⟩
  split at hc
  · next hnil =>
    obtain rfl := List.mem_singleton.mp hc
    rcases hinv.fetchWord h0 hr with hfound | ⟨-, hfail⟩
    · exact ⟨hfound.ilarg.trans hl, q, hq, hfound.extends.node q h0⟩
    · rw [hfail]
      exact ⟨hl, q, hq, rfl⟩
  · exact absurd hc List.not_mem_nil

/-- Behind the double indirect block. -/
theorem Sim.double (h : Sim s₀ s t new) (hnew : new ⊆ [t.node (.ind 7)]) (hinv : t.Inv)
    (hl : t.ilarg = true) (h0 : t.node (.ind 7) ≠ 0)
    (hdata : (s.core (t.node (.ind 7))).data = t.disk (t.node (.ind 7))) {bn j k : ℕ}
    (hparent : (Node.data bn).parent true = some (.ind2 j, k)) :
    Refines s₀
      (if (s.fetchDouble (t.node (.ind 7)) j).1 = 0 then (0, (s.fetchDouble (t.node (.ind 7)) j).2)
        else (s.fetchDouble (t.node (.ind 7)) j).2.fetchIndirect
          (s.fetchDouble (t.node (.ind 7)) j).1 k)
      (if (t.fetchWord (t.node (.ind 7)) j).1 = 0 then (0, (t.fetchWord (t.node (.ind 7)) j).2)
        else (t.fetchWord (t.node (.ind 7)) j).2.fetchWord (t.fetchWord (t.node (.ind 7)) j).1 k)
      (if t.node (.ind2 j) = 0 then
        if t.free = [] then new else FileDev.lost [true, false] t.free else []) := by
  -- the place below the double indirect block and the word it holds
  have hmid : (Node.ind2 j).parent t.ilarg = some (.ind 7, j) := by simp [Node.parent, hl]
  have haddr : t.node (.ind 7) = t.i_addr 7 := by simp [FileDev.node, hl]
  have hword : t.node (.ind2 j) = t.words (t.node (.ind 7)) j := by
    rw [haddr] at h0 ⊢
    have hderef : t.node (.ind2 j) = t.deref (t.i_addr 7) j := by simp [FileDev.node, hl]
    rw [hderef, FileDev.deref, if_neg h0]
  rw [hword]
  by_cases hw : t.words (t.node (.ind 7)) j = 0
  · rcases eq_or_ne t.free [] with hnil | hne
    · -- there is no block for the place
      obtain ⟨hx, hy⟩ := h.fetchDouble_nil hdata hw hnil
      rw [hx, hy, if_pos hw, if_pos hnil]
      refine ⟨rfl, h, fun c hc => ?_⟩
      obtain rfl := List.mem_singleton.mp (hnew hc)
      exact ⟨hl, .ind 7, Node.hasWords_ind (by omega), rfl⟩
    · -- the place gets a new block, whose words have not been written
      obtain ⟨b, s', t', hx, hy, hfree, hsim⟩ :=
        -- the cache and the volume take the same block
        h.fetchDouble_new hinv hnew hdata (hinv.fresh _) hw hne
      have hfound := (hinv.fetchWord h0 hmid).resolve_right fun hnil => hne hnil.1
      rw [hy] at hfound
      have hb : b ≠ 0 := hfound.ne
      have hnode : t'.node (.ind2 j) = b := hfound.node_self
      have hl' : t'.ilarg = true := hfound.ilarg.trans hl
      subst hnode
      rw [hx, hy, if_pos hw, if_neg hne, hfree, FileDev.lost_indirect, FileDev.lost_false]
      simp only [if_neg hb]
      exact hsim.refines_new hfound.inv hl' hb (Node.hasWords_ind2 j) (by rw [hl', hparent])
  · -- A new block has no words.
    have hnil : new = [] := by
      refine List.eq_nil_iff_forall_not_mem.mpr fun c hc => hw ?_
      obtain rfl := List.mem_singleton.mp (hnew hc)
      obtain ⟨-, hzero, -⟩ := h.cleared _ hc
      rw [FileDev.words, hzero, Block.word_zero]
    subst hnil
    obtain ⟨s', hx, hy, hsim, hdata'⟩ := h.fetchDouble_old hdata hw
    -- the place has a block already
    rw [if_neg hw]
    simp only [hx, hy, if_neg hw]
    rw [← hword] at hdata' ⊢
    exact hsim.refines_old hinv hdata' k

/-- `bmap` of a large file, through the cache. -/
theorem Sim.large (h : Sim s₀ s t []) (hinv : t.Inv) (hl : t.ilarg = true) {bn : ℕ}
    (hbn : bn < 32768) :
    Refines s₀ (s.large bn) (t.large bn) (FileDev.lost (t.largeNeeds bn) t.free) := by
  have hroot : ∀ i < 8, t.node (.ind i) = t.i_addr i := fun i hi => by simp [FileDev.node, hl, hi]
  have hfetch : ∀ i, i < 8 → FileDev.Found t (.ind i) (t.fetchAddr i) ∨
      t.free = [] ∧ t.fetchAddr i = (0, t) := fun i hi => hinv.fetchAddr hi (.inl ⟨hl, rfl⟩)
  unfold BufDev.large FileDev.large FileDev.largeNeeds
  simp only [hl, true_or, true_and]
  by_cases h7 : bn / 256 < 7
  · -- One indirect block.
    have hi : (if bn / 2048 ≠ 0 then 7 else bn / 256) = bn / 256 := if_neg (by omega)
    have hmin : min (bn / 256) 7 = bn / 256 := by omega
    have hne7 : ¬ bn / 256 = 7 := by omega
    have hle7 : ¬ (7 ≤ bn / 256 ∧ t.node (.ind2 (bn / 256 - 7)) = 0) := by omega
    have hparent : (Node.data bn).parent true = some (.ind (bn / 256), bn % 256) := by
      simp [Node.parent, h7]
    rw [hi, hmin, if_neg hle7, List.append_nil, hroot _ (by omega)]
    by_cases h0 : t.i_addr (bn / 256) = 0
    · rcases eq_or_ne t.free [] with hnil | hne
      · -- no indirect block, and no free one
        obtain ⟨hx, hy⟩ := h.fetchRoot_nil h0 hnil
        rw [hx, hy, hnil, FileDev.lost_nil]
        simp only [if_true]
        exact h.refines 0
      · -- the indirect block is a new one
        obtain ⟨b, s', t', hx, hy, hfree, hsim⟩ := h.fetchRoot_new hinv h0 hne
        have hfound := (hfetch (bn / 256) (by omega)).resolve_right fun hnil => hne hnil.1
        rw [hy] at hfound
        have hb : b ≠ 0 := hfound.ne
        have hnode : t'.node (.ind (bn / 256)) = b := hfound.node_self
        have hl' : t'.ilarg = true := hfound.ilarg.trans hl
        have hdata : t.node (.data bn) = 0 := by
          simp [FileDev.node, hl, h7, FileDev.deref, h0]
        subst hnode
        rw [hx, hy, if_pos h0, if_pos hdata, hfree, List.singleton_append, FileDev.lost_indirect,
          FileDev.lost_false]
        simp only [if_neg hb, if_neg hne7]
        exact hsim.refines_new hfound.inv hl' hb (Node.hasWords_ind (by omega)) (by rw [hl', hparent])
    · obtain ⟨s', hx, hy, hsim, hdata⟩ := h.fetchRoot_old h0
      simp only [hx, hy, if_neg h0, if_neg hne7, List.nil_append, FileDev.lost_leaf]
      rw [← hroot _ (by omega)] at hdata ⊢
      exact hsim.refines_old hinv hdata _
  · -- An indirect block of indirect blocks.
    have hi : (if bn / 2048 ≠ 0 then 7 else bn / 256) = 7 := by
      split <;> omega
    have hj : bn / 256 % 256 - 7 = bn / 256 - 7 := by omega
    have hmin : min (bn / 256) 7 = 7 := by omega
    have hle7 : 7 ≤ bn / 256 := by omega
    have hparent : (Node.data bn).parent true = some (.ind2 (bn / 256 - 7), bn % 256) := by
      simp [Node.parent, h7]
    simp only [hi, hj, hmin, hle7, true_and, if_true]
    rw [hroot 7 (by omega)]
    by_cases h0 : t.i_addr 7 = 0
    · rcases eq_or_ne t.free [] with hnil | hne
      · obtain ⟨hx, hy⟩ := h.fetchRoot_nil h0 hnil
        rw [hx, hy, hnil, FileDev.lost_nil]
        simp only [if_true]
        exact h.refines 0
      · obtain ⟨b, s', t', hx, hy, hfree, hsim⟩ := h.fetchRoot_new hinv h0 hne
        have hfound := (hfetch 7 (by omega)).resolve_right fun hnil => hne hnil.1
        rw [hy] at hfound
        have hb : b ≠ 0 := hfound.ne
        have hnode : t'.node (.ind 7) = b := hfound.node_self
        have hl' : t'.ilarg = true := hfound.ilarg.trans hl
        have hmid : t.node (.ind2 (bn / 256 - 7)) = 0 := by
          simp [FileDev.node, FileDev.deref, h0]
        have hmid' : t'.node (.ind2 (bn / 256 - 7)) = 0 := by
          rw [show t'.node = update t.node (.ind 7) b from hfound.node, update_of_ne (by simp), hmid]
        have hdata : t.node (.data bn) = 0 := by
          simp [FileDev.node, hl, h7, FileDev.deref, h0]
        -- both levels are new
        have hdouble := hsim.double (hnode ▸ List.Subset.refl _) hfound.inv hl' (hnode ▸ hb)
          (hnode ▸ hsim.data_new (List.mem_singleton_self b)) hparent
        rw [hnode, if_pos hmid'] at hdouble
        simp only [hx, hy, if_neg hb, if_pos h0, if_pos hmid, if_pos hdata]
        rw [hfree, List.append_assoc, List.singleton_append, FileDev.lost_indirect]
        exact hdouble
    · obtain ⟨s', hx, hy, hsim, hdata⟩ := h.fetchRoot_old h0
      have hnode := hroot 7 (by omega)
      have h0' : t.node (.ind 7) ≠ 0 := hnode ▸ h0
      rw [← hnode] at hdata hx hy
      have hdouble := hsim.double (List.nil_subset _) hinv hl h0' hdata hparent
      simp only [hx, hy, if_neg h0, if_neg h0', List.nil_append]
      by_cases hmid : t.node (.ind2 (bn / 256 - 7)) = 0
      · have hleaf : t.node (.data bn) = 0 := by
          have hq : t.node (.data bn) = t.deref (t.node (.ind2 (bn / 256 - 7))) (bn % 256) := by
            simp [FileDev.node, hl, h7]
          rw [hq, hmid]
          rfl
        rw [if_pos hmid] at hdouble
        rw [if_pos hmid, if_pos hleaf, List.singleton_append]
        rcases eq_or_ne t.free [] with hnil | hne
        · rw [hnil, FileDev.lost_nil]
          rwa [if_pos hnil] at hdouble
        · rwa [if_neg hne] at hdouble
      · rw [if_neg hmid] at hdouble
        rw [if_neg hmid, List.nil_append, FileDev.lost_leaf]
        exact hdouble

/-- The small file algorithm: the new block is data, and marked. -/
theorem Sim.small (h : Sim s₀ s t []) (hinv : t.Inv) (bn : ℕ) :
    Refines s₀ (s.small bn) (t.fetchAddr bn) [] := by
  have haddr := congrFun h.i_addr_eq bn
  by_cases h0 : t.i_addr bn = 0
  · rcases eq_or_ne t.free [] with hnil | hne
    · have hx : s.small bn = (0, s) := by
        rw [BufDev.small, haddr, if_pos h0, h.alloc_nil hnil]
        exact if_pos rfl
      have hy : t.fetchAddr bn = (0, t) := by
        rw [FileDev.fetchAddr, if_neg (not_not.mpr h0), FileDev.alloc_nil hnil]
        exact if_pos rfl
      rw [hx, hy]
      exact h.refines 0
    · obtain ⟨b, t', halloc, ha⟩ := FileDev.alloc_eq hne
      obtain ⟨s', hs', hsim, -⟩ := h.alloc_cons ha
      have hb := hinv.alloc_ne ha
      obtain ⟨hbfree, -⟩ := List.nodup_cons.mp (ha.free ▸ hinv.nodup)
      -- `bdwrite` brings the cache and the device together
      have hwrite : Sim s₀ (s'.bdwrite b) t' [] := by
        have hwrite : Sim s₀ { s' with core := update s'.core b ⟨t'.disk b, true, true⟩ }
            { t' with disk := update t'.disk b (t'.disk b) } [] :=
          hsim.write hbfree (fun c hc => by simp [hc]) List.not_mem_nil
        rw [update_eq_self] at hwrite
        rwa [bdwrite_eq, hsim.data_new (List.mem_singleton_self b)]
      have hx : s.small bn =
          (b, { s'.bdwrite b with i_addr := update t'.i_addr bn b }) := by
        rw [BufDev.small, haddr, if_pos h0, hs', ← hwrite.i_addr_eq]
        exact if_neg hb
      have hy : t.fetchAddr bn = (b, { t' with i_addr := update t'.i_addr bn b }) := by
        rw [FileDev.fetchAddr, if_neg (not_not.mpr h0), halloc]
        exact if_neg hb
      rw [hx, hy]
      exact (hwrite.putAddr _).refines b
  · have hx : s.small bn = (t.i_addr bn, s) := by
      rw [BufDev.small, haddr, if_neg h0]
    have hy : t.fetchAddr bn = (t.i_addr bn, t) := if_pos h0
    rw [hx, hy]
    exact h.refines _

/-- The change to a large file fails in both. -/
theorem Sim.toLarge_nil (h : Sim s₀ s t []) (hnil : t.free = []) :
    s.toLarge = (false, s) ∧ t.toLarge = (false, t) := by
  rw [BufDev.toLarge, FileDev.toLarge, h.alloc_nil hnil, FileDev.alloc_nil hnil]
  exact ⟨if_pos rfl, if_pos rfl⟩

/-- The conversion block is marked. -/
theorem Sim.toLarge (h : Sim s₀ s t []) (hinv : t.Inv) (hne : t.free ≠ []) :
    ∃ b s' t', s.toLarge = (true, s') ∧ t.toLarge = (true, t') ∧ t.free = b :: t'.free ∧ b ≠ 0 ∧
      Sim s₀ s' t' [] ∧ t'.i_addr = fun i => if i = 0 then b else 0 := by
  obtain ⟨b, t', halloc, ha⟩ := FileDev.alloc_eq hne
  obtain ⟨s', hs', hsim, -⟩ := h.alloc_cons ha
  have hb := hinv.alloc_ne ha
  obtain ⟨hbfree, -⟩ := List.nodup_cons.mp (ha.free ▸ hinv.nodup)
  have hwrite : Sim s₀ { s' with core := update s'.core b ⟨Block.ofAddr t'.i_addr, true, true⟩ }
      { t' with disk := update t'.disk b (Block.ofAddr t'.i_addr) } [] :=
    hsim.write hbfree (fun c hc => by simp [hc]) List.not_mem_nil
  have hput := (hwrite.putAddr fun i => if i = 0 then b else 0).putLarge
  refine ⟨b, _, { t' with
    ilarg := true
    i_addr := fun i => if i = 0 then b else 0
    disk := update t'.disk b (Block.ofAddr t'.i_addr) }, ?_, ?_, ha.free, hb, hput, rfl⟩
  · rw [BufDev.toLarge, hs', ← hsim.i_addr_eq]
    simp only [if_neg hb, bdwrite, update_self, update_idem]
  · rw [FileDev.toLarge, halloc]
    exact if_neg hb

/-- What the large file needs after the conversion is what it needed before. -/
theorem largeNeeds_toLarge (hinv : t.Inv) (hl : t.ilarg = false) {bn : ℕ} (hbn : 8 ≤ bn)
    (h : t.toLarge = (true, t')) (hne : t.free ≠ []) : t'.largeNeeds bn = t.largeNeeds bn := by
  obtain ⟨b, t₁, halloc, ha⟩ := FileDev.alloc_eq hne
  have hb := hinv.alloc_ne ha
  have heq : t.toLarge = (true, { t₁ with
      ilarg := true
      i_addr := fun i => if i = 0 then b else 0
      disk := update t₁.disk b (Block.ofAddr t₁.i_addr) }) := by
    rw [FileDev.toLarge, halloc]
    exact if_neg hb
  have ht := (Prod.mk.inj (h.symm.trans heq)).2
  have hl' : t'.ilarg = true := by rw [ht]
  have haddr : t'.i_addr = fun i => if i = 0 then b else 0 := by rw [ht]
  have hword : ∀ k, 8 ≤ k → t'.words b k = 0 := by
    intro k hk
    rw [FileDev.words, ht]
    exact (congrArg (fun x => Block.word x k) (update_self ..)).trans
      ((Block.word_ofAddr ..).trans (if_neg (not_lt.mpr hk)))
  -- Only the first indirect block is there, and the places of the data in it are empty.
  have hind : t'.node (.ind (min (bn / 256) 7)) = 0 ↔ 256 ≤ bn := by
    have hlt : min (bn / 256) 7 < 8 := by omega
    have hnode : t'.node (.ind (min (bn / 256) 7)) = t'.i_addr (min (bn / 256) 7) := by
      simp [FileDev.node, hl', hlt]
    rw [hnode, haddr]
    dsimp only
    split
    · next h0 => exact iff_of_false hb (by omega)
    · next h0 => exact iff_of_true rfl (by omega)
  have hind2 : ∀ j, t'.node (.ind2 j) = 0 := by
    intro j
    simp [FileDev.node, FileDev.deref, haddr]
  have hdata : t'.node (.data bn) = 0 := by
    by_cases h0 : bn / 256 = 0
    · have hmod : bn % 256 = bn := Nat.mod_eq_of_lt (by omega)
      have hderef : t'.node (.data bn) = t'.deref b bn := by
        simp [FileDev.node, hl', h0, haddr, hmod]
      rw [hderef, FileDev.deref, hword bn hbn, ite_self]
    · simp [FileDev.node, hl', haddr, h0, FileDev.deref]
  have hold : t.node (.ind (min (bn / 256) 7)) = 0 ∧ (∀ j, t.node (.ind2 j) = 0) ∧
      t.node (.data bn) = 0 := by
    refine ⟨?_, fun j => ?_, ?_⟩
    · simp [FileDev.node, hl]
    · simp [FileDev.node, hl]
    · simp [FileDev.node, hl, not_lt.mpr hbn]
  obtain ⟨hold₁, hold₂, hold₃⟩ := hold
  simp only [FileDev.largeNeeds, hl', hl, hind, hind2, hdata, hold₁, hold₂, hold₃, true_or, true_and,
    Bool.false_eq_true, false_or, and_true]

/-- `bmap` over the buffers does what it does without them, but for the lost block. -/
theorem Sim.bmap (h : Sim s₀ s t []) (hinv : t.Inv) {bn : ℕ} (hbn : bn < 32768) :
    Refines s₀ (s.bmap bn) (t.bmap bn) (FileDev.lost (t.needs bn) t.free) := by
  unfold BufDev.bmap FileDev.bmap FileDev.needs
  rw [h.ilarg_eq]
  cases hl : t.ilarg with
  | true =>
    simp only [if_true]
    exact h.large hinv hl hbn
  | false =>
    simp only [Bool.false_eq_true, if_false]
    by_cases h8 : bn < 8
    · have hdiv : ¬ bn / 8 ≠ 0 := by omega
      rw [if_neg hdiv, if_neg hdiv, if_pos h8, FileDev.lost_leaf]
      exact h.small hinv bn
    · have hdiv : bn / 8 ≠ 0 := by omega
      rw [if_pos hdiv, if_pos hdiv, if_neg h8]
      rcases eq_or_ne t.free [] with hnil | hne
      · obtain ⟨hx, hy⟩ := h.toLarge_nil hnil
        rw [hx, hy, hnil, FileDev.lost_nil]
        exact h.refines 0
      · -- both make the file large with the same block
        obtain ⟨b, s', t', hx, hy, hfree, hb, hsim, -⟩ := h.toLarge hinv hne
        obtain ⟨t'', hy', hext, hl', -⟩ := hinv.toLarge hl hne
        obtain rfl : t' = t'' := (Prod.mk.inj (hy.symm.trans hy')).2
        rw [hx, hy, hfree, FileDev.lost_other, ← largeNeeds_toLarge hinv hl (not_lt.mp h8) hy hne]
        exact hsim.large hext.inv hl' hbn

/-! ## The result -/

/-- The tree is in order: it has the blocks that it had and blocks that were free, none of them twice
or free still, and the data is where it was. -/
structure Intact (t t' : FileDev) : Prop where
  owned : ∀ r, t'.node r ≠ 0 →
    (∃ q, t.node q = t'.node r) ∨ t'.node r ∈ t.free ∧ t'.node r ∉ t'.free
  distinct : NodesDistinct t'.node
  fresh : ∀ r, t'.node r ≠ 0 → t'.node r ∉ t'.free
  kept : ∀ bn, t.node (.data bn) ≠ 0 → t'.node (.data bn) = t.node (.data bn)

theorem intact_of_extends (h : FileDev.Extends t t') : Intact t t' := by
  refine ⟨fun r h0 => ?_, h.inv.distinct, fun r _ => h.inv.fresh r, fun bn => h.node _⟩
  rcases (h.grows.places _ h0).mp (.inr ⟨r, rfl⟩) with hfree | hnode
  · exact .inr ⟨hfree, h.inv.fresh r⟩
  · exact .inl hnode

/-- What is intact depends on the nodes and the free list. -/
theorem intact_congr {t'' : FileDev} (h : Intact t t') (hnode : t''.node = t'.node)
    (hfree : t''.free = t'.free) : Intact t t'' := by
  refine ⟨?_, ?_, ?_, ?_⟩
  · rw [hnode, hfree]
    exact h.owned
  · rw [hnode]
    exact h.distinct
  · rw [hnode, hfree]
    exact h.fresh
  · rw [hnode]
    exact h.kept

/-- What is lost was allocated. -/
theorem mem_of_mem_lost {ns : List Bool} {bs : List (BitVec 16)} {c : BitVec 16}
    (h : c ∈ FileDev.lost ns bs) : c ∈ bs := by
  induction ns generalizing bs with
  | nil =>
    rcases bs with _ | ⟨b, bs⟩ <;> simp [FileDev.lost] at h
  | cons n ns ih =>
    rcases bs with _ | ⟨b, _ | ⟨b', bs⟩⟩
    · simp at h
    · rw [FileDev.lost] at h
      split at h
      · exact h
      · exact absurd h List.not_mem_nil
    · exact List.mem_cons_of_mem b (ih h)

/-- What the next `bread` finds in a lost block. -/
theorem Sim.found_new (h : Sim s₀ s t new) {c : BitVec 16} (hc : c ∈ new) :
    s.found c = if (s₀.core c).b_delwri then Block.zero else s₀.disk c := by
  obtain ⟨hdata, -, hdelwri⟩ := h.cleared c hc
  rw [BufDev.found, hdata, hdelwri, h.disk]

/-- A file in order is in order after `bmap`, when the buffers have been given up, exactly if the last
free block does not become an indirect block that nothing goes into, or its buffer has to be written
still, or there are only zeros on the disk in it. -/
theorem intact_iff {s : BufDev} (hcoh : s.Coherent) (hinv : s.settled.Inv)
    (hpad : ∀ b k, 512 ≤ k → s.disk b k = 0) {bn : ℕ} (hbn : bn < 32768) :
    Intact s.settled (s.bmap bn).2.settled ↔
      ∀ b ∈ FileDev.lost (s.settled.needs bn) s.free,
        (s.core b).b_delwri = true ∨ ∀ k < 256, (s.disk b).word k = 0 := by
  obtain ⟨-, hsim, hplace⟩ := (Sim.of_coherent hcoh).bmap hinv hbn
  obtain ⟨hext, -⟩ := hinv.bmap hbn
  have hlost : FileDev.lost (s.settled.needs bn) s.settled.free =
      FileDev.lost (s.settled.needs bn) s.free := rfl
  rw [hlost] at hsim hplace
  generalize hnew : FileDev.lost (s.settled.needs bn) s.free = new at hsim hplace ⊢
  generalize (s.settled.bmap bn).2 = t' at hsim hplace hext
  generalize (s.bmap bn).2 = s' at hsim ⊢
  have hfree : s'.settled.free = t'.free := hsim.free_eq
  have hilarg : s'.settled.ilarg = t'.ilarg := hsim.ilarg_eq
  have htop : s'.settled.top = t'.top := by
    have haddr : s'.settled.i_addr = t'.i_addr := hsim.i_addr_eq
    funext r
    cases r <;> simp only [FileDev.top, hilarg, haddr]
  have hold : ∀ c ∉ new, ∀ k, s'.settled.words c k = t'.words c k := fun c hc k =>
    congrArg (fun x => Block.word x k) (hsim.found c hc)
  have hzero : ∀ c ∈ new, ∀ k, t'.words c k = 0 := by
    intro c hc k
    obtain ⟨-, hdisk, -⟩ := hsim.cleared c hc
    rw [FileDev.words, hdisk, Block.word_zero]
  have htree : IsTree (Node.shape t'.ilarg) t'.top s'.settled.words s'.settled.node := by
    have htree := s'.settled.isTree
    rwa [hilarg, htop] at htree
  constructor
  · intro hintact c hc
    by_contra hcond
    obtain ⟨hdelwri, hwords⟩ := not_or.mp hcond
    simp only [not_forall] at hwords
    obtain ⟨k, hk, hword⟩ := hwords
    -- The word is a pointer in the tree.
    obtain ⟨hl, q, hq, hnode⟩ := hplace c hc
    obtain ⟨r, hr⟩ := hq k hk
    have hc0 : c ≠ 0 := by
      rintro rfl
      exact hinv.zero (mem_of_mem_lost (hnew ▸ hc))
    have hmono : ∀ r, t'.node r ≠ 0 → s'.settled.node r = t'.node r := fun r h0 =>
      t'.isTree.node_eq_of_ne htree
        (fun b k hb => hold b (fun hmem => hb (hzero b hmem k)) k) h0
    have hqc : s'.settled.node q = c := (hmono q (hnode ▸ hc0)).trans hnode
    have hparent : (Node.shape t'.ilarg).parent r = some (q, k) := by rw [hl]; exact hr
    have hw : s'.settled.node r = (s.disk c).word k := by
      rw [htree r, TreeShape.follow, hparent]
      simp only [hqc, if_neg hc0]
      refine congrArg (fun x => Block.word x k) ((hsim.found_new hc).trans (if_neg hdelwri))
    have hr0 : t'.node r = 0 := by
      rw [t'.isTree r, TreeShape.follow, hparent]
      simp only [hnode, if_neg hc0]
      exact hzero c hc k
    have hw0 : s'.settled.node r ≠ 0 := hw ▸ hword
    have hnone : ∀ q', t'.node q' ≠ s'.settled.node r := by
      intro q' heq
      have hsame := hmono q' (heq ▸ hw0)
      have hqr := hintact.distinct q' r (hsame ▸ heq ▸ hw0) (hsame.trans heq)
      exact hw0 (heq.symm.trans (hqr ▸ hr0))
    rcases hintact.owned r hw0 with ⟨q', hq'⟩ | ⟨hin, hout⟩
    · exact hnone q' ((hext.node q' (hq' ▸ hw0)).trans hq')
    · rcases (hext.grows.places _ hw0).mpr (.inl hin) with hmem | ⟨q', hq'⟩
      · exact hout (hfree ▸ hmem)
      · exact hnone q' hq'
  · intro hcond
    have hwords : s'.settled.words = t'.words := by
      funext c k
      by_cases hc : c ∈ new
      · rw [hzero c hc k]
        have hfound : s'.settled.words c k =
            Block.word (if (s.core c).b_delwri then Block.zero else s.disk c) k :=
          congrArg (fun x => Block.word x k) (hsim.found_new hc)
        rw [hfound]
        rcases hcond c hc with hdelwri | hdisk
        · rw [if_pos hdelwri, Block.word_zero]
        · split
          · exact Block.word_zero k
          · by_cases hk : k < 256
            · exact hdisk k hk
            · have hlow := hpad c (2 * k) (by omega)
              have hhigh := hpad c (2 * k + 1) (by omega)
              simp [Block.word, hlow, hhigh]
      · exact hold c hc k
    rw [hwords] at htree
    exact intact_congr (intact_of_extends hext) (htree.unique t'.isTree) hfree

/-- A small file without blocks on a device with some free blocks, all of which had data. -/
def used (free : List (BitVec 16)) : BufDev where
  ilarg := false
  i_addr := fun _ => 0
  i_size := 0
  disk := fun _ k => if k < 512 then 0xff else 0
  free := free
  core := fun _ => ⟨Block.zero, false, false⟩

theorem used_coherent (free : List (BitVec 16)) : (used free).Coherent := by
  intro b
  constructor <;> simp [used]

/-- The file of the witness is in order. -/
theorem used_inv {free : List (BitVec 16)} (hnodup : free.Nodup) (hzero : 0 ∉ free) :
    (used free).settled.Inv := by
  have hnode : ∀ r, (used free).settled.node r = 0 := by
    intro r
    cases r <;> simp [FileDev.node, settled, used]
  refine ⟨fun r r' hr => absurd (hnode r) hr, hnodup, hzero, fun r => ?_⟩
  rw [hnode]
  exact hzero

theorem used_pad (free : List (BitVec 16)) : ∀ b k, 512 ≤ k → (used free).disk b k = 0 :=
  fun _ _ hk => if_neg (not_lt.mpr hk)

/-- With three blocks for a block of a second indirect block. -/
theorem intact_iff_three :
    Intact (used [10, 11, 12]).settled ((used [10, 11, 12]).bmap 300).2.settled := by
  have hlost : FileDev.lost ((used [10, 11, 12]).settled.needs 300) [10, 11, 12] = [] := by decide
  refine (intact_iff (used_coherent _) (used_inv (by decide) (by decide)) (used_pad _)
    (by decide)).mpr fun b hb => ?_
  exact absurd (hlost ▸ hb) List.not_mem_nil

/-- With two blocks, the second becomes an indirect block with the old data in it. -/
theorem not_intact : ¬ ∀ (s : BufDev) (bn : ℕ), s.Coherent → s.settled.Inv →
    (∀ b k, 512 ≤ k → s.disk b k = 0) → bn < 32768 → Intact s.settled (s.bmap bn).2.settled := by
  intro hall
  have hintact := hall (used [10, 11]) 300 (used_coherent _) (used_inv (by decide) (by decide))
    (used_pad _) (by decide)
  have hcond := (intact_iff (used_coherent _) (used_inv (by decide) (by decide)) (used_pad _)
    (by decide)).mp hintact 11 (by decide)
  rcases hcond with hdelwri | hwords
  · cases hdelwri
  · exact absurd (hwords 0 (by decide)) (by decide)

end BufDev

end UnixV6
