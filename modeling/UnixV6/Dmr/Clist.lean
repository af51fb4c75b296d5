import UnixV6.Dmr.Ide
import UnixV6.Lib.Ownership
import UnixV6.Lib.Ring
import UnixV6.Lib.Run

/-!
# Character queues (`dmr/tty.c`)

A `clist` is a chain of blocks of eight bytes, a link and six characters, aligned at eight; the
blocks that are in no queue are chained from `cfreelist`. The ends of a queue are addresses of
characters: one that is a multiple of eight is past the end of its block.
-/

open Function

namespace UnixV6.Tty

/-- Max total clist size. -/
def NCLIST : ℕ := 100

/-- `struct clist`: character count, and where the first character is and the next one goes. -/
structure Clist where
  c_cc : ℤ := 0
  c_cf : ℕ := 0
  c_cl : ℕ := 0
  deriving DecidableEq, Repr

/-- The queues `q` and the core of the blocks: the links by block, the characters by address. -/
structure TtySys (ι : Type) where
  q : ι → Clist
  cfreelist : ℕ
  c_next : ℕ → ℕ
  info : ℕ → Byte
  /-- The characters that have gone into each queue. -/
  put : ι → List Byte
  /-- The characters that have been taken. -/
  taken : ι → List Byte

/-- The block of an address: `& ~07`. -/
def blockOf (a : ℕ) : ℕ := a / 8 * 8

/-- `pBlock->info` -/
def infoOf (b : ℕ) : ℕ := b + 2

section

variable {ι : Type} [DecidableEq ι]

namespace TtySys

/-- A block goes to the free list. -/
def free (s : TtySys ι) (b : ℕ) : TtySys ι :=
  { s with c_next := update s.c_next b s.cfreelist, cfreelist := b }

/-- The loop of `cinit` over the next `n` blocks from `cp` on. -/
def cinitLoop (last : ℕ) : ℕ → ℕ → TtySys ι → TtySys ι
  | 0, _, s => s
  | n + 1, cp, s => if cp ≤ last then cinitLoop last n (cp + 8) (s.free cp) else s

/-- `cinit` for the table at address `cfree`. -/
def cinit (cfree : ℕ) (s : TtySys ι) : TtySys ι :=
  cinitLoop (cfree + 8 * (NCLIST - 1)) NCLIST (blockOf (cfree + 7)) s

/-- Take the oldest character. -/
def getc (s : TtySys ι) (i : ι) : ℤ × TtySys ι :=
  let p := s.q i
  if p.c_cf = 0 then (-1, { s with q := update s.q i { p with c_cl := 0 } })
  else
    let ret := s.info p.c_cf
    let s := { s with taken := update s.taken i (s.taken i ++ [ret]) }
    let p := { p with c_cf := p.c_cf + 1, c_cc := p.c_cc - 1 }
    if p.c_cc = 0 then
      let b := blockOf (p.c_cf - 1)
      (ret.toNat, ({ s with q := update s.q i { p with c_cf := 0, c_cl := 0 } }).free b)
    else if p.c_cf % 8 = 0 then
      let b := blockOf (p.c_cf - 1)
      (ret.toNat, ({ s with q := update s.q i { p with c_cf := infoOf (s.c_next b) } }).free b)
    else (ret.toNat, { s with q := update s.q i p })

/-- Store a character where the queue has room. -/
def store (s : TtySys ι) (i : ι) (p : Clist) (c : Byte) : TtySys ι :=
  { s with
    q := update s.q i { p with c_cl := p.c_cl + 1, c_cc := p.c_cc + 1 }
    info := update s.info p.c_cl c
    put := update s.put i (s.put i ++ [c]) }

/-- Append a character. -/
def putc (s : TtySys ι) (c : Byte) (i : ι) : ℤ × TtySys ι :=
  let p := s.q i
  if p.c_cl = 0 then
    let b := s.cfreelist
    if b = 0 then (-1, s)
    else
      let s := { s with cfreelist := s.c_next b }
      let s := { s with c_next := update s.c_next b 0 }
      (0, s.store i { p with c_cl := infoOf b, c_cf := infoOf b } c)
  else if p.c_cl % 8 = 0 then
    let b := s.cfreelist
    if b = 0 then (-1, s)
    else
      let s := { s with cfreelist := s.c_next b }
      let s := { s with c_next := update s.c_next (p.c_cl - 8) b }
      let s := { s with c_next := update s.c_next b 0 }
      (0, s.store i { p with c_cl := infoOf b } c)
  else (0, s.store i p c)

end TtySys

inductive TtyAct (ι : Type)
  | getc (i : ι)
  | putc (c : Byte) (i : ι)
  deriving DecidableEq, Repr

/-- One call, whatever it returns. -/
def step (s : TtySys ι) : TtyAct ι → Option (TtySys ι)
  | .getc i => some (s.getc i).2
  | .putc c i => some (s.putc c i).2

/-- The kernel's data before `cinit`: no list has anything in it. -/
def bss (c_next : ℕ → ℕ) (info : ℕ → Byte) : TtySys ι where
  q := fun _ => {}
  cfreelist := 0
  c_next := c_next
  info := info
  put := fun _ => []
  taken := fun _ => []

/-! ## The layout of a queue -/

/-- Where the characters of a queue are: in the blocks `bs`, `n` of them after the first `off`. -/
structure Layout where
  bs : List ℕ
  off : ℕ
  n : ℕ

/-- The address of character `k` of the blocks `bs`. -/
def slot (bs : List ℕ) (k : ℕ) : ℕ := infoOf (bs.getD (k / 6) 0) + k % 6

namespace Layout

def chars (L : Layout) (info : ℕ → Byte) : List Byte :=
  (List.range L.n).map fun j => info (slot L.bs (L.off + j))

end Layout

/-- `p` is the head of the queue that `L` describes. -/
structure Queue (c_next : ℕ → ℕ) (p : Clist) (L : Layout) : Prop where
  aligned : ∀ b ∈ L.bs, b % 8 = 0
  links : LinkQueue c_next 0 (L.bs.headD 0) (L.bs.getLastD 0) L.bs
  off_lt : L.off < 6
  /-- There are as many blocks as it takes. -/
  long : L.off + L.n ≤ 6 * L.bs.length
  short : 6 * L.bs.length < L.off + L.n + 6
  off_nil : L.n = 0 → L.off = 0
  cc : p.c_cc = L.n
  cf : p.c_cf = if L.n = 0 then 0 else slot L.bs L.off
  cl : p.c_cl = if L.n = 0 then 0 else slot L.bs (L.off + L.n - 1) + 1

theorem slot_pos (bs : List ℕ) (k : ℕ) : 0 < slot bs k := by
  simp only [slot, infoOf]
  omega

theorem getD_mem {bs : List ℕ} {i : ℕ} (h : i < bs.length) : bs.getD i 0 ∈ bs := by
  rw [List.getD_eq_getElem _ _ h]
  exact List.getElem_mem h

/-- The place of a character in its block. -/
theorem slot_mod {bs : List ℕ} {k : ℕ} (ha : ∀ b ∈ bs, b % 8 = 0) (hk : k < 6 * bs.length) :
    slot bs k % 8 = k % 6 + 2 := by
  have hb := ha _ (getD_mem (show k / 6 < bs.length by omega))
  simp only [slot, infoOf]
  omega

/-- The block of a character. -/
theorem blockOf_slot {bs : List ℕ} {k : ℕ} (ha : ∀ b ∈ bs, b % 8 = 0) (hk : k < 6 * bs.length) :
    blockOf (slot bs k) = bs.getD (k / 6) 0 := by
  have hb := ha _ (getD_mem (show k / 6 < bs.length by omega))
  simp only [slot, infoOf, blockOf]
  omega

/-- Different characters are in different places. -/
theorem slot_inj {bs : List ℕ} {k k' : ℕ} (ha : ∀ b ∈ bs, b % 8 = 0) (hnodup : bs.Nodup)
    (hk : k < 6 * bs.length) (hk' : k' < 6 * bs.length) (h : slot bs k = slot bs k') : k = k' := by
  have hmod := slot_mod ha hk
  have hmod' := slot_mod ha hk'
  have hblock := blockOf_slot ha hk
  rw [h, blockOf_slot ha hk', List.getD_eq_getElem _ _ (by omega),
    List.getD_eq_getElem _ _ (by omega)] at hblock
  have hdiv := (hnodup.getElem_inj_iff).mp hblock
  rw [h] at hmod
  omega

theorem slot_cons (b : ℕ) (bs : List ℕ) (k : ℕ) : slot (b :: bs) (k + 6) = slot bs k := by
  simp only [slot]
  rw [show (k + 6) / 6 = k / 6 + 1 from by omega, show (k + 6) % 6 = k % 6 from by omega,
    List.getD_cons_succ]

/-- The characters of the first blocks. -/
theorem slot_append {bs : List ℕ} {k : ℕ} (bs' : List ℕ) (hk : k < 6 * bs.length) :
    slot (bs ++ bs') k = slot bs k := by
  simp only [slot]
  rw [List.getD_append _ _ _ _ (by omega)]

/-- The next address in the same block. -/
theorem slot_succ {bs : List ℕ} {k : ℕ} (hk : (k + 1) % 6 ≠ 0) :
    slot bs (k + 1) = slot bs k + 1 := by
  simp only [slot]
  rw [show (k + 1) / 6 = k / 6 from by omega]
  omega

namespace Queue

variable {c_next : ℕ → ℕ} {p : Clist} {L : Layout}

theorem nil_iff (h : Queue c_next p L) : L.bs = [] ↔ L.n = 0 := by
  have hlong := h.long
  have hshort := h.short
  have hoff := h.off_nil
  rw [← List.length_eq_zero_iff]
  omega

theorem cf_zero_iff (h : Queue c_next p L) : p.c_cf = 0 ↔ L.n = 0 := by
  have hpos := slot_pos L.bs L.off
  rw [h.cf]
  split <;> omega

theorem cl_zero_iff (h : Queue c_next p L) : p.c_cl = 0 ↔ L.n = 0 := by
  rw [h.cl]
  split <;> omega

/-- Only the links of the queue's own blocks are read. -/
theorem congr {c_next' : ℕ → ℕ} (h : Queue c_next p L) (hnext : ∀ b ∈ L.bs, c_next' b = c_next b) :
    Queue c_next' p L :=
  { h with links := h.links.congr hnext }

theorem nodup (h : Queue c_next p L) : L.bs.Nodup := (List.nodup_cons.mp h.links.nodup).2

/-- The empty queue. -/
theorem empty : Queue c_next { c_cc := 0, c_cf := 0, c_cl := 0 } ⟨[], 0, 0⟩ where
  aligned := by simp
  links := LinkQueue.nil
  off_lt := by simp
  long := by simp
  short := by simp
  off_nil := by simp
  cc := rfl
  cf := rfl
  cl := rfl

end Queue

/-! ### Taking a character -/

/-- The first character of a queue. -/
theorem chars_cons {info : ℕ → Byte} {L : Layout} {m : ℕ} (hn : L.n = m + 1) :
    L.chars info = info (slot L.bs L.off) :: Layout.chars ⟨L.bs, L.off + 1, m⟩ info := by
  simp only [Layout.chars, hn, List.range_succ_eq_map, List.map_cons, List.map_map, Nat.add_zero]
  congr 1
  apply List.map_congr_left
  intro j _
  simp only [comp_apply, Nat.succ_eq_add_one]
  rw [show L.off + (j + 1) = L.off + 1 + j from by omega]

/-- A block that has been used up is no longer part of the layout. -/
theorem chars_drop (info : ℕ → Byte) (b m : ℕ) (bs : List ℕ) :
    Layout.chars ⟨b :: bs, 6, m⟩ info = Layout.chars ⟨bs, 0, m⟩ info := by
  simp only [Layout.chars]
  apply List.map_congr_left
  intro j _
  rw [Nat.add_comm, slot_cons, Nat.zero_add]

namespace Queue

variable {c_next : ℕ → ℕ} {p : Clist} {L : Layout} {m : ℕ}

/-- The first block of a queue that has a character. -/
theorem first_block (h : Queue c_next p L) (hn : L.n = m + 1) :
    ∃ b bs, L.bs = b :: bs ∧ p.c_cf = infoOf b + L.off ∧ blockOf p.c_cf = b := by
  have hoff := h.off_lt
  have hcf : p.c_cf = slot L.bs L.off := by rw [h.cf, if_neg (by omega)]
  obtain ⟨b, bs, hbs⟩ : ∃ b bs, L.bs = b :: bs := by
    apply List.exists_cons_of_ne_nil
    rw [ne_eq, h.nil_iff]
    omega
  have hblock := blockOf_slot h.aligned (k := L.off) (by rw [hbs, List.length_cons]; omega)
  have hdiv : L.off / 6 = 0 := by omega
  refine ⟨b, bs, hbs, ?_, ?_⟩
  · rw [hcf, slot, hdiv, hbs, List.getD_cons_zero]
    omega
  · rw [hcf, hblock, hdiv, hbs, List.getD_cons_zero]

/-- The last character is in the only block. -/
theorem pop_last (h : Queue c_next p L) (hn : L.n = 1) : L.bs = [blockOf p.c_cf] := by
  obtain ⟨b, bs, hbs, -, hblock⟩ := h.first_block hn
  have hshort := h.short
  have hoff := h.off_lt
  rw [hbs, List.length_cons] at hshort
  rw [hbs, hblock, List.length_eq_zero_iff.mp (show bs.length = 0 by omega)]

/-- The last character of a block that is not the last one. -/
theorem pop_block (h : Queue c_next p L) (hn : L.n = m + 2) (hfull : (p.c_cf + 1) % 8 = 0) :
    ∃ bs, L.bs = blockOf p.c_cf :: bs ∧ L.off = 5 ∧
      Queue c_next ⟨p.c_cc - 1, infoOf (c_next (blockOf p.c_cf)), p.c_cl⟩ ⟨bs, 0, m + 1⟩ := by
  obtain ⟨b, bs, hbs, hcf, hblock⟩ := h.first_block hn
  have hoff := h.off_lt
  have hlong := h.long
  have hshort := h.short
  have hb := h.aligned b (by rw [hbs]; exact List.mem_cons_self)
  rw [hbs, List.length_cons] at hlong hshort
  have hoff5 : L.off = 5 := by
    simp only [infoOf] at hcf
    omega
  -- the link leads to the second block
  obtain ⟨b', bs', hbs'⟩ : ∃ b' bs', bs = b' :: bs' := by
    apply List.exists_cons_of_ne_nil
    rintro rfl
    simp only [List.length_nil] at hlong
    omega
  have hlinks := h.links
  rw [hbs] at hlinks
  have hnext : c_next b = b' := by
    have hchain := hlinks.links
    rw [hbs', List.cons_append, List.cons_append, List.isChain_cons_cons] at hchain
    exact hchain.1
  refine ⟨bs, by rw [hbs, hblock], hoff5, ?_⟩
  constructor
  case aligned => exact fun x hx => h.aligned x (by rw [hbs]; exact List.mem_cons_of_mem b hx)
  case links =>
    have hpop := hlinks.pop
    rw [hnext] at hpop
    simp only [hbs', List.headD_cons, List.getLastD_cons] at hpop ⊢
    exact hpop
  case off_lt => simp
  case long => simp only; omega
  case short => simp only; omega
  case off_nil => simp
  case cc =>
    simp only [h.cc, hn]
    push_cast
    omega
  case cf =>
    rw [if_neg (by simp), hblock, hnext, slot]
    simp [hbs']
  case cl =>
    rw [if_neg (by simp)]
    show p.c_cl = _
    rw [h.cl, if_neg (by omega), hbs, hn, hoff5]
    rw [show 5 + (m + 2) - 1 = 0 + (m + 1) - 1 + 6 from by omega, slot_cons]

/-- A character with another one after it in its block. -/
theorem pop_char (h : Queue c_next p L) (hn : L.n = m + 2) (hfull : (p.c_cf + 1) % 8 ≠ 0) :
    Queue c_next ⟨p.c_cc - 1, p.c_cf + 1, p.c_cl⟩ ⟨L.bs, L.off + 1, m + 1⟩ := by
  obtain ⟨b, bs, hbs, hcf, -⟩ := h.first_block hn
  have hoff := h.off_lt
  have hlong := h.long
  have hshort := h.short
  have hb := h.aligned b (by rw [hbs]; exact List.mem_cons_self)
  -- the next character is in the same block
  have hoff5 : L.off < 5 := by
    simp only [infoOf] at hcf
    omega
  constructor
  case aligned => exact h.aligned
  case links => exact h.links
  case off_lt => simp only; omega
  case long => simp only; omega
  case short => simp only; omega
  case off_nil => simp
  case cc =>
    simp only [h.cc, hn]
    push_cast
    omega
  case cf =>
    rw [if_neg (by simp)]
    show p.c_cf + 1 = _
    rw [slot_succ (by omega), h.cf, if_neg (by omega)]
  case cl =>
    rw [if_neg (by simp)]
    show p.c_cl = _
    -- the end pointer has not moved
    rw [h.cl, if_neg (by omega), hn,
      show L.off + 1 + (m + 1) - 1 = L.off + (m + 2) - 1 from by omega]

end Queue

/-! ### Adding a character -/

/-- The character that is stored comes behind the others. -/
theorem chars_store {info : ℕ → Byte} {L : Layout} {c : Byte} (bs : List ℕ)
    (ha : ∀ b ∈ L.bs ++ bs, b % 8 = 0) (hnodup : (L.bs ++ bs).Nodup)
    (hroom : L.off + L.n < 6 * (L.bs ++ bs).length) (hlong : L.off + L.n ≤ 6 * L.bs.length) :
    Layout.chars ⟨L.bs ++ bs, L.off, L.n + 1⟩
        (update info (slot (L.bs ++ bs) (L.off + L.n)) c) = L.chars info ++ [c] := by
  simp only [Layout.chars, List.range_succ, List.map_append, List.map_cons, List.map_nil,
    update_self]
  congr 1
  apply List.map_congr_left
  intro j hj
  rw [List.mem_range] at hj
  rw [update_of_ne, slot_append bs (by omega)]
  intro heq
  have := slot_inj ha hnodup (by omega) hroom heq
  omega

namespace Queue

variable {c_next : ℕ → ℕ} {p : Clist} {L : Layout}

/-- The first character of a queue. -/
theorem push_nil {b : ℕ} (h : Queue c_next p L) (hn : L.n = 0) (hb : b % 8 = 0) (hb0 : b ≠ 0) :
    Queue (update c_next b 0) ⟨p.c_cc + 1, infoOf b, infoOf b + 1⟩ ⟨[b], 0, 1⟩ where
  aligned := by simpa using hb
  links := by simpa using LinkQueue.push_nil hb0
  off_lt := by simp
  long := by simp
  short := by simp
  off_nil := by simp
  cc := by simp [h.cc, hn]
  cf := by simp [slot]
  cl := by simp [slot]

/-- A character that needs another block. -/
theorem push_block {b : ℕ} (h : Queue c_next p L) (hn : L.n ≠ 0) (hfull : p.c_cl % 8 = 0)
    (hb : b % 8 = 0) (hnew : b ∉ 0 :: L.bs) :
    Queue (update (update c_next (p.c_cl - 8) b) b 0) ⟨p.c_cc + 1, p.c_cf, infoOf b + 1⟩
        ⟨L.bs ++ [b], L.off, L.n + 1⟩ ∧
      slot (L.bs ++ [b]) (L.off + L.n) = infoOf b ∧ p.c_cl - 8 ∈ L.bs := by
  have hlong := h.long
  have hshort := h.short
  have hoff := h.off_lt
  have hcl : p.c_cl = slot L.bs (L.off + L.n - 1) + 1 := by rw [h.cl, if_neg hn]
  have hmod := slot_mod h.aligned (k := L.off + L.n - 1) (by omega)
  have hend : L.off + L.n = 6 * L.bs.length := by omega
  have hne : L.bs ≠ [] := fun hnil => hn (h.nil_iff.mp hnil)
  -- the last block
  have hlast : p.c_cl - 8 = L.bs.getLastD 0 := by
    have hval : slot L.bs (L.off + L.n - 1) = infoOf (L.bs.getLastD 0) + 5 := by
      have hpos := List.length_pos_iff.mpr hne
      rw [slot, show (L.off + L.n - 1) / 6 = L.bs.length - 1 from by omega,
        List.getD_eq_getElem _ _ (by omega), List.getLastD_eq_getLast?,
        List.getLast?_eq_some_getLast hne, Option.getD_some, List.getLast_eq_getElem]
      omega
    rw [hcl, hval, infoOf]
    omega
  have hslot : slot (L.bs ++ [b]) (L.off + L.n) = infoOf b := by
    rw [hend, slot, show 6 * L.bs.length / 6 = L.bs.length from by omega,
      show 6 * L.bs.length % 6 = 0 from by omega]
    simp [List.getD_eq_getElem?_getD]
  have hmem : L.bs.getLastD 0 ∈ L.bs := by
    rw [List.getLastD_eq_getLast?, List.getLast?_eq_some_getLast hne, Option.getD_some]
    exact List.getLast_mem hne
  refine ⟨?_, hslot, by rw [hlast]; exact hmem⟩
  constructor
  case aligned =>
    intro x hx
    rcases List.mem_append.mp hx with hx | hx
    · exact h.aligned x hx
    · rw [List.mem_singleton.mp hx]
      exact hb
  case links =>
    have hpush := h.links.push hne hnew
    have hbl : b ≠ L.bs.getLastD 0 := fun heq => by
      apply hnew
      rw [heq]
      exact List.mem_cons_of_mem 0 hmem
    have hhead : (L.bs ++ [b]).headD 0 = L.bs.headD 0 := by
      obtain ⟨x, xs, hx⟩ := List.exists_cons_of_ne_nil hne
      simp [hx]
    have hend' : (L.bs ++ [b]).getLastD 0 = b := by simp
    rw [hlast, update_comm hbl.symm, hhead, hend']
    exact hpush
  case off_lt => exact hoff
  case long =>
    simp only [List.length_append, List.length_singleton]
    omega
  case short =>
    simp only [List.length_append, List.length_singleton]
    omega
  case off_nil => simp
  case cc => simp [h.cc]
  case cf =>
    rw [if_neg (by simp), slot_append [b] (show L.off < 6 * L.bs.length by omega)]
    show p.c_cf = _
    rw [h.cf, if_neg hn]
  case cl =>
    rw [if_neg (by simp), show L.off + (L.n + 1) - 1 = L.off + L.n from by omega, hslot]

/-- A character for which there is room. -/
theorem push_char (h : Queue c_next p L) (hn : L.n ≠ 0) (hfull : p.c_cl % 8 ≠ 0) :
    Queue c_next ⟨p.c_cc + 1, p.c_cf, p.c_cl + 1⟩ ⟨L.bs, L.off, L.n + 1⟩ ∧
      L.off + L.n < 6 * L.bs.length ∧ p.c_cl = slot L.bs (L.off + L.n) := by
  have hlong := h.long
  have hshort := h.short
  have hcl : p.c_cl = slot L.bs (L.off + L.n - 1) + 1 := by rw [h.cl, if_neg hn]
  have hmod := slot_mod h.aligned (k := L.off + L.n - 1) (by omega)
  have hsix : (L.off + L.n - 1 + 1) % 6 ≠ 0 := by omega
  have hslot : p.c_cl = slot L.bs (L.off + L.n) := by
    rw [hcl, ← slot_succ hsix, show L.off + L.n - 1 + 1 = L.off + L.n from by omega]
  refine ⟨?_, by omega, hslot⟩
  constructor
  case aligned => exact h.aligned
  case links => exact h.links
  case off_lt => exact h.off_lt
  case long => simp only; omega
  case short => simp only; omega
  case off_nil => simp
  case cc => simp [h.cc]
  case cf =>
    rw [if_neg (by simp)]
    show p.c_cf = _
    rw [h.cf, if_neg hn]
  case cl =>
    rw [if_neg (by simp), show L.off + (L.n + 1) - 1 = L.off + L.n from by omega]
    show p.c_cl + 1 = _
    rw [hslot]

end Queue

/-! ## All queues -/

/-- A character stored in a block of another queue. -/
theorem Queue.chars_update {c_next : ℕ → ℕ} {p : Clist} {L : Layout} {info : ℕ → Byte} {x : ℕ}
    {c : Byte} (h : Queue c_next p L) (hx : blockOf x ∉ L.bs) :
    L.chars (update info x c) = L.chars info := by
  simp only [Layout.chars]
  apply List.map_congr_left
  intro j hj
  rw [List.mem_range] at hj
  have hlong := h.long
  rw [update_of_ne]
  rintro rfl
  apply hx
  rw [blockOf_slot h.aligned (by omega)]
  exact getD_mem (by omega)

/-- The blocks of `pool` are divided among the queues and the free list, and each queue holds what
has been put into it and not yet taken, in order. -/
structure Inv (pool : Set ℕ) (s : TtySys ι) (lay : ι → Layout) (free : List ℕ) : Prop where
  aligned : ∀ b ∈ pool, b % 8 = 0
  queue : ∀ i, Queue s.c_next (s.q i) (lay i)
  freeList : ∃ last, LinkQueue s.c_next 0 s.cfreelist last free
  owned : Ownership (fun i => {b | b ∈ (lay i).bs}) {b | b ∈ free} pool
  history : ∀ i, s.put i = s.taken i ++ (lay i).chars s.info

namespace Inv

variable {pool : Set ℕ} {s : TtySys ι} {lay : ι → Layout} {free : List ℕ} {i : ι}

omit [DecidableEq ι] in
theorem notMem_free (h : Inv pool s lay free) {b : ℕ} (hb : b ∈ (lay i).bs) : b ∉ free :=
  h.owned.not_free_of_mem hb

omit [DecidableEq ι] in
/-- A block in a queue is in no other. -/
theorem notMem_other (h : Inv pool s lay free) {j : ι} {b : ℕ} (hb : b ∈ (lay i).bs)
    (hj : j ≠ i) : b ∉ (lay j).bs :=
  fun hb' => hj (h.owned.eq_of_mem hb' hb)

omit [DecidableEq ι] in
theorem cfreelist_zero_iff (h : Inv pool s lay free) : s.cfreelist = 0 ↔ free = [] := by
  obtain ⟨last, hfree⟩ := h.freeList
  exact hfree.first_eq_null_iff

/-- Queue `i` gives up a character but no block. -/
theorem keep {p : Clist} {L : Layout} {c : Byte} (h : Inv pool s lay free)
    (hbs : L.bs = (lay i).bs) (hq : Queue s.c_next p L)
    (hc : (lay i).chars s.info = c :: L.chars s.info) :
    Inv pool { s with q := update s.q i p, taken := update s.taken i (s.taken i ++ [c]) }
      (update lay i L) free := by
  refine ⟨h.aligned, fun j => ?_, h.freeList, ?_, fun j => ?_⟩
  · rcases eq_or_ne j i with rfl | hj
    · simpa using hq
    · simpa [hj] using h.queue j
  · refine h.owned.congr fun j => ?_
    rcases eq_or_ne j i with rfl | hj
    · simp [hbs]
    · simp [hj]
  · rcases eq_or_ne j i with rfl | hj
    · simp [h.history j, hc]
    · simpa [hj] using h.history j

/-- Queue `i` gives up its first block with a character. -/
theorem shrink {p : Clist} {L : Layout} {b : ℕ} {c : Byte} (h : Inv pool s lay free)
    (hbs : (lay i).bs = b :: L.bs) (hq : Queue s.c_next p L)
    (hc : (lay i).chars s.info = c :: L.chars s.info) :
    Inv pool (TtySys.free { s with
      q := update s.q i p, taken := update s.taken i (s.taken i ++ [c]) } b)
      (update lay i L) (b :: free) := by
  -- the block that falls free belonged to queue `i`
  have hb : b ∈ (lay i).bs := by simp [hbs]
  have hnodup := (h.queue i).nodup
  rw [hbs, List.nodup_cons] at hnodup
  refine ⟨h.aligned, fun j => ?_, ?_, ?_, fun j => ?_⟩
  -- the queues: `i` has its new pieces, the others never used the block
  · rcases eq_or_ne j i with rfl | hj
    · simp only [TtySys.free, update_self]
      exact hq.congr fun x hx => update_of_ne (ne_of_mem_of_not_mem hx hnodup.1) _ _
    · simp only [TtySys.free, update_of_ne hj]
      exact (h.queue j).congr fun x hx =>
        update_of_ne (ne_of_mem_of_not_mem hx (h.notMem_other hb hj)) _ _
  · -- the block is the first of the free list
    obtain ⟨last, hfree⟩ := h.freeList
    refine ⟨_, hfree.push_first ?_⟩
    rw [List.mem_cons, not_or]
    exact ⟨fun h0 => (h.queue i).links.null_notMem (h0 ▸ hb), h.notMem_free hb⟩
  · have hfree : {x | x ∈ b :: free} = {x | x ∈ free} ∪ {b} := by
      ext x
      simp
    rw [hfree]
    refine h.owned.give (i := i) (by simpa using hb) ?_ fun j hj => by simp [hj]
    ext x
    simp only [update_self, hbs, List.mem_cons, Set.mem_ofPred_eq, Set.mem_sdiff,
      Set.mem_singleton_iff]
    constructor
    · exact fun hx => ⟨.inr hx, ne_of_mem_of_not_mem hx hnodup.1⟩
    · exact fun hx => hx.1.resolve_left hx.2
  -- the characters taken so far: one more of queue `i`
  · rcases eq_or_ne j i with rfl | hj
    · simp [TtySys.free, h.history j, hc]
    · simpa [TtySys.free, hj] using h.history j

/-- A character is stored in queue `i`, in a block it has. -/
theorem store {p : Clist} {L : Layout} {c : Byte} (h : Inv pool s lay free)
    (hbs : L.bs = (lay i).bs) (hx : blockOf p.c_cl ∈ L.bs)
    (hq : Queue s.c_next ⟨p.c_cc + 1, p.c_cf, p.c_cl + 1⟩ L)
    (hc : L.chars (update s.info p.c_cl c) = (lay i).chars s.info ++ [c]) :
    Inv pool (s.store i p c) (update lay i L) free := by
  refine ⟨h.aligned, fun j => ?_, h.freeList, ?_, fun j => ?_⟩
  · rcases eq_or_ne j i with rfl | hj
    · simpa [TtySys.store] using hq
    · simpa [TtySys.store, hj] using h.queue j
  · refine h.owned.congr fun j => ?_
    rcases eq_or_ne j i with rfl | hj
    · simp [hbs]
    · simp [hj]
  · rcases eq_or_ne j i with rfl | hj
    · simp [TtySys.store, h.history j, hc]
    · rw [hbs] at hx
      simpa [TtySys.store, hj, (h.queue j).chars_update (h.notMem_other hx hj)] using h.history j

/-- Queue `i` gets the first block of the free list. -/
theorem grow {p : Clist} {L : Layout} {c_next : ℕ → ℕ} {b : ℕ} (h : Inv pool s lay (b :: free))
    (hbs : ∀ x, x ∈ L.bs ↔ x ∈ (lay i).bs ∨ x = b) (hq : Queue c_next p L)
    (hnext : ∀ x, x ∉ L.bs → c_next x = s.c_next x) :
    (∀ j, Queue c_next (update s.q i p j) (update lay i L j)) ∧
      (∃ last, LinkQueue c_next 0 (s.c_next b) last free) ∧
      Ownership (fun j => {x | x ∈ (update lay i L j).bs}) {x | x ∈ free} pool := by
  -- the block was in no queue
  have hbfree : ∀ j, b ∉ (lay j).bs := fun j hj => h.notMem_free hj List.mem_cons_self
  obtain ⟨last, hfree⟩ := h.freeList
  have hnodup := (List.nodup_cons.mp (List.nodup_cons.mp hfree.nodup).2).1
  refine ⟨fun j => ?_, ⟨last, hfree.pop.congr fun x hx => hnext x fun hxL => ?_⟩, ?_⟩
  -- the queues: the links changed only inside the new block's queue
  · rcases eq_or_ne j i with rfl | hj
    · simpa using hq
    · simp only [update_of_ne hj]
      refine (h.queue j).congr fun x hx => hnext x fun hxL => ?_
      rcases (hbs x).mp hxL with hxi | rfl
      · exact h.notMem_other hxi hj hx
      · exact hbfree j hx
  -- the free list's links are outside it
  · rcases (hbs x).mp hxL with hxi | rfl
    · exact h.notMem_free hxi (List.mem_cons_of_mem b hx)
    · exact hnodup hx
  · -- the block leaves the free list
    have hrest : {x | x ∈ free} = {x | x ∈ b :: free} \ {b} := by
      ext x
      simp only [List.mem_cons, Set.mem_ofPred_eq, Set.mem_sdiff, Set.mem_singleton_iff]
      constructor
      · exact fun hx => ⟨.inr hx, ne_of_mem_of_not_mem hx hnodup⟩
      · exact fun hx => hx.1.resolve_left hx.2
    rw [hrest]
    refine h.owned.take (i := i) (by simp) ?_ fun j hj => by simp [hj]
    ext x
    simp [hbs x, or_comm]

/-- The same with the character stored in the block. -/
theorem grow_store {p : Clist} {L : Layout} {c_next : ℕ → ℕ} {b : ℕ} {c : Byte}
    (h : Inv pool s lay (b :: free)) (hcl : blockOf p.c_cl = b)
    (hbs : ∀ x, x ∈ L.bs ↔ x ∈ (lay i).bs ∨ x = b)
    (hq : Queue c_next ⟨p.c_cc + 1, p.c_cf, p.c_cl + 1⟩ L)
    (hnext : ∀ x, x ∉ L.bs → c_next x = s.c_next x)
    (hc : L.chars (update s.info p.c_cl c) = (lay i).chars s.info ++ [c]) :
    Inv pool (TtySys.store { s with cfreelist := s.c_next b, c_next := c_next } i p c)
      (update lay i L) free := by
  obtain ⟨hqueue, hfree, howned⟩ := h.grow hbs hq hnext
  refine ⟨h.aligned, hqueue, hfree, howned, fun j => ?_⟩
  rcases eq_or_ne j i with rfl | hj
  · simp [TtySys.store, h.history j, hc]
  · have hb : blockOf p.c_cl ∉ (lay j).bs := by
      rw [hcl]
      exact fun hmem => h.notMem_free hmem List.mem_cons_self
    simpa [TtySys.store, hj, (h.queue j).chars_update hb] using h.history j

end Inv

/-! ## The calls -/

/-- The characters that are in the queue. -/
def TtySys.pending (s : TtySys ι) (i : ι) : List Byte := (s.put i).drop (s.taken i).length

/-- What `getc` returns for these characters. -/
def oldest : List Byte → ℤ
  | [] => -1
  | c :: _ => c.toNat

namespace Inv

variable {pool : Set ℕ} {s : TtySys ι} {lay : ι → Layout} {free : List ℕ}

omit [DecidableEq ι] in
/-- The characters in a queue. -/
theorem pending_eq (h : Inv pool s lay free) (i : ι) : s.pending i = (lay i).chars s.info := by
  rw [TtySys.pending, h.history i, List.drop_left]

/-- The block that `getc` takes from the queue is free afterwards. -/
theorem getc (h : Inv pool s lay free) (i : ι) :
    (s.getc i).1 = oldest (s.pending i) ∧ ∃ L free',
      Inv pool (s.getc i).2 (update lay i L) free' ∧
        L.bs.length + free'.length = (lay i).bs.length + free.length := by
  have hq := h.queue i
  rw [h.pending_eq]
  obtain hn | ⟨m, hn⟩ : (lay i).n = 0 ∨ ∃ m, (lay i).n = m + 1 := by
    cases (lay i).n with
    | zero => exact .inl rfl
    | succ m => exact .inr ⟨m, rfl⟩
  · -- an empty queue stays as it is
    have hcl : (s.q i).c_cl = 0 := hq.cl_zero_iff.mpr hn
    have hget : s.getc i = (-1, s) := by
      simp only [TtySys.getc]
      rw [if_pos (hq.cf_zero_iff.mpr hn)]
      congr
      rw [show ({ s.q i with c_cl := 0 } : Clist) = s.q i from by rw [← hcl], update_eq_self]
    have hchars : (lay i).chars s.info = [] := by simp [Layout.chars, hn]
    rw [hget, hchars]
    exact ⟨rfl, lay i, free, by rwa [update_eq_self], rfl⟩
  · have hcf0 : (s.q i).c_cf ≠ 0 := fun h0 => by
      have := hq.cf_zero_iff.mp h0
      omega
    have hcf : (s.q i).c_cf = slot (lay i).bs (lay i).off := by rw [hq.cf, if_neg (by omega)]
    have hc : (lay i).chars s.info = s.info (slot (lay i).bs (lay i).off) ::
        Layout.chars ⟨(lay i).bs, (lay i).off + 1, m⟩ s.info := chars_cons hn
    rw [← hcf] at hc
    have hcc := hq.cc
    rw [hc]
    simp only [TtySys.getc, Nat.add_sub_cancel]
    rw [if_neg hcf0]
    split
    case isTrue hlast =>
      -- the queue gives up its only block
      obtain rfl : m = 0 := by omega
      refine ⟨rfl, _, _, h.shrink (L := ⟨[], 0, 0⟩) (hq.pop_last hn)
        (by rw [hlast]; exact Queue.empty) hc, ?_⟩
      simp [hq.pop_last hn, Nat.add_comm]
    case isFalse hmore =>
      obtain ⟨k, rfl⟩ : ∃ k, m = k + 1 := ⟨m - 1, by omega⟩
      split
      case isTrue hfull =>
        obtain ⟨bs, hbs, hoff, hq'⟩ := hq.pop_block hn hfull
        refine ⟨rfl, _, _, h.shrink hbs hq' ?_, ?_⟩
        · rw [hc, hbs, hoff, chars_drop]
        · simp only [hbs, List.length_cons]
          omega
      case isFalse hfull =>
        exact ⟨rfl, _, _, h.keep (L := ⟨(lay i).bs, (lay i).off + 1, k + 1⟩) rfl
          (hq.pop_char hn hfull) hc, rfl⟩

/-- `putc` fails, for want of a block, and then nothing has happened, or the character is in, with
a block from the free list if it needs one. -/
theorem putc (h : Inv pool s lay free) (c : Byte) (i : ι) :
    (((s.q i).c_cl = 0 ∨ (s.q i).c_cl % 8 = 0) ∧ s.cfreelist = 0 ∧ s.putc c i = (-1, s)) ∨
      ((s.putc c i).1 = 0 ∧ (s.putc c i).2.put = update s.put i (s.put i ++ [c]) ∧
        (s.putc c i).2.taken = s.taken ∧ ∃ L free', Inv pool (s.putc c i).2 (update lay i L) free' ∧
          L.off = (lay i).off ∧ L.n = (lay i).n + 1 ∧
          L.bs.length + free'.length = (lay i).bs.length + free.length) := by
  have hq := h.queue i
  simp only [TtySys.putc]
  -- a block that is taken
  have hblock : s.cfreelist ≠ 0 → ∃ f, free = s.cfreelist :: f ∧ s.cfreelist % 8 = 0 ∧
      s.cfreelist ∉ 0 :: (lay i).bs := fun h0 => by
    obtain ⟨last, hfree⟩ := h.freeList
    obtain ⟨b, f, rfl⟩ : ∃ b f, free = b :: f :=
      List.exists_cons_of_ne_nil fun hnil => h0 (h.cfreelist_zero_iff.mpr hnil)
    obtain rfl := hfree.first_cons
    have hpool : s.cfreelist ∈ pool :=
      h.owned.mem_total_iff.mpr (.inr (show s.cfreelist ∈ s.cfreelist :: f from List.mem_cons_self))
    refine ⟨f, rfl, h.aligned _ hpool, ?_⟩
    rw [List.mem_cons, not_or]
    exact ⟨h0, fun hmem => h.notMem_free hmem List.mem_cons_self⟩
  split
  case isTrue hnil =>
    split
    case isTrue h0 => exact .inl ⟨.inl hnil, h0, rfl⟩
    case isFalse h0 =>
      obtain ⟨f, rfl, hb, hnew⟩ := hblock h0
      have hn := hq.cl_zero_iff.mp hnil
      have hbs := hq.nil_iff.mpr hn
      refine .inr ⟨rfl, rfl, rfl, _, _, h.grow_store (L := ⟨[s.cfreelist], 0, 1⟩) ?_ ?_
        (hq.push_nil hn hb h0) ?_ ?_, (hq.off_nil hn).symm, by simp [hn], ?_⟩
      · simp only [infoOf, blockOf]
        omega
      · intro x
        simp [hbs]
      · intro x hx
        exact update_of_ne (by simpa using hx) _ _
      · simp [Layout.chars, hn, slot]
      · simp [hbs, Nat.add_comm]
  case isFalse hnil =>
    have hn : (lay i).n ≠ 0 := fun hn => hnil (hq.cl_zero_iff.mpr hn)
    split
    case isTrue hfull =>
      split
      case isTrue h0 => exact .inl ⟨.inr hfull, h0, rfl⟩
      case isFalse h0 =>
        obtain ⟨f, rfl, hb, hnew⟩ := hblock h0
        obtain ⟨hq', hslot, hlast⟩ := hq.push_block hn hfull hb hnew
        refine .inr ⟨rfl, rfl, rfl, _, _, h.grow_store
          (L := ⟨(lay i).bs ++ [s.cfreelist], (lay i).off, (lay i).n + 1⟩) ?_ ?_ hq' ?_ ?_,
          rfl, rfl, ?_⟩
        · simp only [infoOf, blockOf]
          omega
        · intro x
          simp
        · intro x hx
          rw [List.mem_append, not_or, List.mem_singleton] at hx
          rw [update_of_ne hx.2, update_of_ne (ne_of_mem_of_not_mem hlast hx.1).symm]
        · have hlong := hq.long
          have hroom : (lay i).off + (lay i).n < 6 * ((lay i).bs ++ [s.cfreelist]).length := by
            rw [List.length_append, List.length_singleton]
            omega
          rw [← hslot]
          exact chars_store [s.cfreelist] hq'.aligned hq'.nodup hroom hlong
        · simp only [List.length_append, List.length_cons, List.length_nil]
          omega
    case isFalse hfull =>
      obtain ⟨hq', hroom, hcl⟩ := hq.push_char hn hfull
      refine .inr ⟨rfl, rfl, rfl, _, _,
        h.store (L := ⟨(lay i).bs, (lay i).off, (lay i).n + 1⟩) rfl ?_ hq' ?_, rfl, rfl, rfl⟩
      · rw [hcl, blockOf_slot hq.aligned hroom]
        exact getD_mem (show ((lay i).off + (lay i).n) / 6 < (lay i).bs.length by omega)
      · rw [hcl, ← List.append_nil (lay i).bs]
        exact chars_store [] (by simpa using hq.aligned) (by simpa using hq.nodup)
          (by simpa using hroom) hq.long

end Inv

/-! ### Room -/

/-- How many characters the last block of a queue has room for. -/
def slack (p : Clist) : ℕ := if p.c_cl % 8 = 0 then 0 else 8 - p.c_cl % 8

/-- How many characters a queue can get before `putc` fails, if no other queue takes a block. -/
def TtySys.room (s : TtySys ι) (free : List ℕ) (i : ι) : ℕ := slack (s.q i) + 6 * free.length

/-- The blocks of a queue of `n` characters that has room for `room` more in the last one. -/
def blocksFor (room n : ℕ) : ℕ := if n = 0 then 0 else (room + n + 5) / 6

/-- The room behind the last character of a queue. -/
theorem Queue.slack_eq {c_next : ℕ → ℕ} {p : Clist} {L : Layout} (h : Queue c_next p L) :
    slack p + L.off + L.n = 6 * L.bs.length := by
  have hlong := h.long
  have hshort := h.short
  rcases Nat.eq_zero_or_pos L.n with hn | hn
  · have hcl := h.cl_zero_iff.mpr hn
    have hoff := h.off_nil hn
    simp only [slack, hcl, h.nil_iff.mpr hn, hoff, hn]
    rfl
  · have hcl : p.c_cl = slot L.bs (L.off + L.n - 1) + 1 := by rw [h.cl, if_neg (by omega)]
    have hmod := slot_mod h.aligned (k := L.off + L.n - 1) (by omega)
    simp only [slack, hcl]
    split <;> omega

namespace Inv

variable {pool : Set ℕ} {s : TtySys ι} {lay : ι → Layout} {free : List ℕ} {i : ι}

omit [DecidableEq ι] in
/-- The room behind the last character of each queue. -/
theorem slack_eq (h : Inv pool s lay free) (i : ι) :
    slack (s.q i) + (lay i).off + (lay i).n = 6 * (lay i).bs.length := (h.queue i).slack_eq

omit [DecidableEq ι] in
/-- The number of characters in a queue. -/
theorem length_pending (h : Inv pool s lay free) (i : ι) : (s.pending i).length = (lay i).n := by
  rw [h.pending_eq, Layout.chars, List.length_map, List.length_range]

omit [DecidableEq ι] in
/-- As many blocks as it takes. -/
theorem blocks_eq (h : Inv pool s lay free) (i : ι) :
    (lay i).bs.length = blocksFor (slack (s.q i)) (s.pending i).length := by
  have hslack := h.slack_eq i
  have hoff := (h.queue i).off_lt
  have hnil := (h.queue i).nil_iff
  rw [h.length_pending, blocksFor]
  split
  case isTrue hn => rw [hnil.mpr hn, List.length_nil]
  case isFalse => omega

omit [DecidableEq ι] in
theorem cc_eq (h : Inv pool s lay free) (i : ι) : (s.q i).c_cc = (s.pending i).length := by
  rw [(h.queue i).cc, h.length_pending]

/-- Without room `putc` fails and does nothing. -/
theorem putc_full (h : Inv pool s lay free) (c : Byte) (hroom : s.room free i = 0) :
    s.putc c i = (-1, s) := by
  rw [TtySys.room] at hroom
  rcases h.putc c i with ⟨-, -, hfail⟩ | ⟨-, -, -, L, free', h', hoff, hn, hblocks⟩
  · exact hfail
  -- the blocks it would have used are all full
  have hslack := h.slack_eq i
  have hslack' := h'.slack_eq i
  rw [update_self] at hslack'
  omega

/-- With room `putc` appends the character. -/
theorem putc_room (h : Inv pool s lay free) (c : Byte) (hroom : s.room free i ≠ 0) :
    (s.putc c i).1 = 0 ∧ (s.putc c i).2.pending = update s.pending i (s.pending i ++ [c]) ∧
      (s.putc c i).2.taken = s.taken ∧
      ∃ L free', Inv pool (s.putc c i).2 (update lay i L) free' ∧
        (s.putc c i).2.room free' i + 1 = s.room free i ∧
        L.bs.length + free'.length = (lay i).bs.length + free.length := by
  rcases h.putc c i with ⟨hfull, h0, -⟩ | ⟨hret, hput, htaken, L, free', h', hoff, hn, hblocks⟩
  · -- the character fails to be stored only without room
    exfalso
    apply hroom
    have hmod : (s.q i).c_cl % 8 = 0 := by
      rcases hfull with hzero | hmod
      · rw [hzero]
      · exact hmod
    rw [TtySys.room, slack, if_pos hmod, h.cfreelist_zero_iff.mp h0]
    rfl
  refine ⟨hret, ?_, htaken, L, free', h', ?_, hblocks⟩
  · ext1 j
    rw [TtySys.pending, hput, htaken]
    rcases eq_or_ne j i with rfl | hj
    · rw [update_self, update_self, TtySys.pending, List.drop_append_of_le_length]
      rw [h.history j, List.length_append]
      omega
    · rw [update_of_ne hj, update_of_ne hj, TtySys.pending]
  · have hslack := h.slack_eq i
    have hslack' := h'.slack_eq i
    rw [update_self] at hslack'
    simp only [TtySys.room]
    omega

/-- Whether or not the character goes in, nothing is taken and no other queue changes. -/
theorem putc_other (h : Inv pool s lay free) (c : Byte) :
    (s.putc c i).2.taken = s.taken ∧ (∀ j ≠ i, (s.putc c i).2.pending j = s.pending j) ∧
      ∃ L free', Inv pool (s.putc c i).2 (update lay i L) free' := by
  by_cases hroom : s.room free i = 0
  · rw [h.putc_full c hroom]
    exact ⟨rfl, fun _ _ => rfl, lay i, free, by rwa [update_eq_self]⟩
  · obtain ⟨-, hpending, htaken, L, free', h', -⟩ := h.putc_room c hroom
    exact ⟨htaken, fun j hj => by rw [hpending, update_of_ne hj], L, free', h'⟩

/-- Of these characters the first ones go in, as many as there is room for. -/
theorem puts (cs : List Byte) (h : Inv pool s lay free) : ∃ L free',
    Inv pool (cs.foldl (fun s c => (s.putc c i).2) s) (update lay i L) free' ∧
      (cs.foldl (fun s c => (s.putc c i).2) s).pending =
        update s.pending i (s.pending i ++ cs.take (s.room free i)) ∧
      (cs.foldl (fun s c => (s.putc c i).2) s).taken = s.taken := by
  induction cs generalizing s lay free with
  | nil => exact ⟨lay i, free, by rwa [update_eq_self], by simp, rfl⟩
  | cons c cs ih =>
    rw [List.foldl_cons]
    by_cases hroom : s.room free i = 0
    · obtain ⟨L, free', h', hpending, htaken⟩ := ih h
      rw [h.putc_full c hroom]
      refine ⟨L, free', h', ?_, htaken⟩
      rw [hpending, hroom, List.take_zero, List.take_zero]
    · obtain ⟨-, hpending₁, htaken₁, L₁, free₁, h₁, hroom₁, -⟩ := h.putc_room c hroom
      obtain ⟨L, free', h', hpending, htaken⟩ := ih h₁
      refine ⟨L, free', by rwa [update_idem] at h', ?_, htaken.trans htaken₁⟩
      rw [hpending, hpending₁, update_idem, update_self, List.append_assoc, ← hroom₁,
        List.take_succ_cons, List.singleton_append]

/-- Nothing happens to an empty queue. -/
theorem getc_nil (h : Inv pool s lay free) (hp : s.pending i = []) : s.getc i = (-1, s) := by
  have hn : (lay i).n = 0 := by rw [← h.length_pending, hp, List.length_nil]
  have hcl : (s.q i).c_cl = 0 := (h.queue i).cl_zero_iff.mpr hn
  simp only [TtySys.getc]
  rw [if_pos ((h.queue i).cf_zero_iff.mpr hn)]
  congr
  rw [show ({ s.q i with c_cl := 0 } : Clist) = s.q i from by rw [← hcl], update_eq_self]

/-- The end of the queue stays where it is as long as there is a character. -/
theorem getc_slack {c d : Byte} {cs : List Byte} (h : Inv pool s lay free)
    (hp : s.pending i = c :: d :: cs) : slack ((s.getc i).2.q i) = slack (s.q i) := by
  have hn : (lay i).n = cs.length + 2 := by
    rw [← h.length_pending, hp, List.length_cons, List.length_cons]
  have hcf0 : (s.q i).c_cf ≠ 0 := by
    rw [ne_eq, (h.queue i).cf_zero_iff]
    omega
  have hcc := (h.queue i).cc
  have hmore : ¬(s.q i).c_cc - 1 = 0 := by omega
  have hcl : ((s.getc i).2.q i).c_cl = (s.q i).c_cl := by
    simp only [TtySys.getc, TtySys.free]
    rw [if_neg hcf0, if_neg hmore]
    split_ifs <;> simp
  simp only [slack, hcl]

/-- The first character is taken, and the block it was in is free if it was the last one there. -/
theorem getc_cons {c : Byte} {cs : List Byte} (h : Inv pool s lay free)
    (hp : s.pending i = c :: cs) :
    (s.getc i).1 = c.toNat ∧ (s.getc i).2.pending = update s.pending i cs ∧
      (s.getc i).2.taken = update s.taken i (s.taken i ++ [c]) ∧
      ∃ L free', Inv pool (s.getc i).2 (update lay i L) free' ∧
        L.bs.length + free'.length = (lay i).bs.length + free.length := by
  obtain ⟨hret, L, free', h', hblocks⟩ := h.getc i
  have hput : (s.getc i).2.put = s.put := by
    simp only [TtySys.getc, TtySys.free]
    split_ifs <;> rfl
  have htaken : (s.getc i).2.taken = update s.taken i (s.taken i ++ [c]) := by
    have hn : (lay i).n = cs.length + 1 := by rw [← h.length_pending, hp, List.length_cons]
    -- a queue with a character is not empty
    have hcf0 : (s.q i).c_cf ≠ 0 := by
      rw [ne_eq, (h.queue i).cf_zero_iff]
      omega
    have hcf : (s.q i).c_cf = slot (lay i).bs (lay i).off := by
      rw [(h.queue i).cf, if_neg (by omega)]
    rw [h.pending_eq, chars_cons hn, ← hcf] at hp
    obtain ⟨hc, -⟩ := List.cons.inj hp
    simp only [TtySys.getc, TtySys.free]
    rw [if_neg hcf0, ← hc]
    split_ifs <;> rfl
  refine ⟨by rw [hret, hp]; rfl, ?_, htaken, L, free', h', hblocks⟩
  ext1 j
  rw [TtySys.pending, hput, htaken]
  rcases eq_or_ne j i with rfl | hj
  · rw [update_self, update_self, List.length_append, List.length_singleton, ← List.tail_drop,
      ← TtySys.pending, hp, List.tail_cons]
  · rw [update_of_ne hj, update_of_ne hj, TtySys.pending]

end Inv

/-! ## Runs -/

/-- The blocks of the table at `cfree`: those at multiples of eight. -/
def pool (cfree : ℕ) : Set ℕ := {b | b % 8 = 0 ∧ cfree ≤ b ∧ b ≤ cfree + 8 * (NCLIST - 1)}

/-- The blocks of a free list of at most `n` that begins with `b`. -/
def chainLength (c_next : ℕ → ℕ) : ℕ → ℕ → ℕ
  | 0, _ => 0
  | n + 1, b => if b = 0 then 0 else chainLength c_next n (c_next b) + 1

/-- The blocks that are free. -/
def TtySys.nfree (s : TtySys ι) : ℕ := chainLength s.c_next NCLIST s.cfreelist

/-- The length of the free list. -/
theorem chainLength_eq {c_next : ℕ → ℕ} {n b last : ℕ} {l : List ℕ}
    (h : LinkQueue c_next 0 b last l) (hn : l.length ≤ n) : chainLength c_next n b = l.length := by
  induction n generalizing b last l with
  | zero => rw [chainLength, Nat.le_zero.mp hn]
  | succ n ih =>
    rw [chainLength]
    rcases l with - | ⟨c, l⟩
    · rw [if_pos (h.first_eq_null_iff.mpr rfl), List.length_nil]
    · have hc : b ≠ 0 := fun hb => by simpa using h.first_eq_null_iff.mp hb
      obtain rfl := h.first_cons
      rw [if_neg hc, ih h.pop (by simp only [List.length_cons] at hn; omega), List.length_cons]

omit [DecidableEq ι] in
/-- No more blocks are free than there are. -/
theorem Inv.nfree_eq {cfree : ℕ} {s : TtySys ι} {lay : ι → Layout} {free : List ℕ}
    (h : Inv (pool cfree) s lay free) : s.nfree = free.length := by
  obtain ⟨last, hfree⟩ := h.freeList
  refine chainLength_eq hfree ?_
  have hmem : ∀ b ∈ free, b ∈ pool cfree := fun b hb =>
    h.owned.mem_total_iff.mpr (.inr (show b ∈ {b | b ∈ free} from hb))
  have hnodup := (List.nodup_cons.mp hfree.nodup).2
  have hindex : (free.map fun b => (b - cfree) / 8).Nodup := by
    refine hnodup.map_on fun b hb b' hb' heq => ?_
    obtain ⟨hmod, hle, -⟩ := hmem b hb
    obtain ⟨hmod', hle', -⟩ := hmem b' hb'
    omega
  have hsub : (free.map fun b => (b - cfree) / 8) ⊆ List.range NCLIST := by
    intro k hk
    obtain ⟨b, hb, rfl⟩ := List.mem_map.mp hk
    obtain ⟨-, hle, hlast⟩ := hmem b hb
    rw [List.mem_range, NCLIST]
    rw [NCLIST] at hlast
    omega
  have hlen := (hindex.subperm hsub).length_le
  rwa [List.length_map, List.length_range] at hlen

/-- Nothing is in any queue yet, and the free list has the blocks of `free`. -/
structure Fresh (s : TtySys ι) (free : List ℕ) : Prop where
  q : ∀ i, s.q i = {}
  put : ∀ i, s.put i = []
  taken : ∀ i, s.taken i = []
  freeList : ∃ last, LinkQueue s.c_next 0 s.cfreelist last free

omit [DecidableEq ι] in
/-- `cinit` frees one block more. -/
theorem Fresh.free {s : TtySys ι} {free : List ℕ} {b : ℕ} (h : Fresh s free)
    (hb : b ∉ 0 :: free) : Fresh (s.free b) (b :: free) := by
  obtain ⟨last, hfree⟩ := h.freeList
  exact ⟨h.q, h.put, h.taken, _, hfree.push_first hb⟩

omit [DecidableEq ι] in
/-- The loop of `cinit` frees the blocks from `cp` on that are not after `last`. -/
theorem Fresh.cinitLoop (last n cp : ℕ) {s : TtySys ι} {free : List ℕ} (h : Fresh s free)
    (hcp : 0 < cp) (hmod : cp % 8 = 0) (hlt : ∀ b ∈ free, b < cp) :
    ∃ free', Fresh (TtySys.cinitLoop last n cp s) free' ∧
      ∀ b, b ∈ free' ↔ b ∈ free ∨ b % 8 = 0 ∧ cp ≤ b ∧ b ≤ last ∧ b < cp + 8 * n := by
  induction n generalizing cp s free with
  | zero => exact ⟨free, h, fun b => ⟨.inl, fun hb => hb.resolve_right (by omega)⟩⟩
  | succ n ih =>
    rw [TtySys.cinitLoop]
    split
    case isFalse hend => exact ⟨free, h, fun b => ⟨.inl, fun hb => hb.resolve_right (by omega)⟩⟩
    -- the blocks freed so far are below `cp`
    have hnew : cp ∉ 0 :: free := by
      rw [List.mem_cons, not_or]
      exact ⟨by omega, fun hmem => lt_irrefl cp (hlt cp hmem)⟩
    have hlt' : ∀ b ∈ cp :: free, b < cp + 8 := fun b hb => by
      rcases List.mem_cons.mp hb with rfl | hb
      · omega
      · have := hlt b hb
        omega
    have hcp' : 0 < cp + 8 := by omega
    obtain ⟨free', hfree', hmem⟩ := ih (cp + 8) (h.free hnew) hcp' (by omega) hlt'
    refine ⟨free', hfree', fun b => ?_⟩
    rw [hmem b, List.mem_cons]
    constructor
    · rintro ((rfl | hb) | hb)
      · right
        omega
      · exact .inl hb
      · right
        omega
    · rintro (hb | hb)
      · exact .inl (.inr hb)
      · rcases eq_or_ne b cp with rfl | hne
        · exact .inl (.inl rfl)
        · right
          omega

omit [DecidableEq ι] in
/-- After `cinit` every block of the table is free. -/
theorem inv_cinit {cfree : ℕ} (hcfree : 0 < cfree) (c_next : ℕ → ℕ) (info : ℕ → Byte) :
    ∃ free, Inv (pool cfree) (TtySys.cinit cfree (bss c_next info : TtySys ι))
      (fun _ => ⟨[], 0, 0⟩) free := by
  have hbss : Fresh (bss c_next info : TtySys ι) [] :=
    ⟨fun _ => rfl, fun _ => rfl, fun _ => rfl, 0, LinkQueue.nil⟩
  obtain ⟨free, hfresh, hmem⟩ := hbss.cinitLoop (cfree + 8 * (NCLIST - 1)) NCLIST
    (blockOf (cfree + 7)) (by simp only [blockOf]; omega) (by simp only [blockOf]; omega) (by simp)
  have hpool : {b | b ∈ free} = pool cfree := by
    ext b
    simp only [Set.mem_ofPred_eq, pool, hmem b, blockOf, NCLIST, List.not_mem_nil, false_or]
    omega
  refine ⟨free, fun b hb => hb.1, fun i => ?_, hfresh.freeList, ?_, fun i => ?_⟩
  · rw [show (TtySys.cinit cfree (bss c_next info : TtySys ι)).q i = {} from hfresh.q i]
    exact Queue.empty
  · rw [hpool]
    exact Ownership.of_empty fun i => by simp
  · rw [show (TtySys.cinit cfree (bss c_next info : TtySys ι)).put i = [] from hfresh.put i,
      show (TtySys.cinit cfree (bss c_next info : TtySys ι)).taken i = [] from hfresh.taken i]
    rfl

/-- Every step keeps the queues and the free list in order. -/
theorem Inv.step {P : Set ℕ} {s s' : TtySys ι} {a : TtyAct ι} {lay : ι → Layout} {free : List ℕ}
    (h : Inv P s lay free) (hs : step s a = some s') : ∃ lay' free', Inv P s' lay' free' := by
  cases a with
  | getc i =>
    cases hs
    obtain ⟨-, L, free', h', -⟩ := h.getc i
    exact ⟨_, free', h'⟩
  | putc c i =>
    cases hs
    rcases h.putc c i with ⟨-, -, hfail⟩ | ⟨-, -, -, L, free', h', -⟩
    · rw [hfail]
      exact ⟨lay, free, h⟩
    · exact ⟨_, free', h'⟩

/-- FIFO queues over a shared pool. -/
structure Fifo (P : Set ℕ) (s : TtySys ι) : Prop where
  /-- What has been taken is the first part of what has been put. -/
  history : ∀ i, s.put i = s.taken i ++ s.pending i
  count : ∀ i, (s.q i).c_cc = (s.pending i).length
  getc : ∀ i, (s.getc i).1 = oldest (s.pending i)
  /-- The chains of the queues and of the free list divide the pool. -/
  blocks : ∃ (bs : ι → List ℕ) (free : List ℕ),
    (∀ i, ∃ last, LinkQueue s.c_next 0 (blockOf (s.q i).c_cf) last (bs i)) ∧
    (∃ last, LinkQueue s.c_next 0 s.cfreelist last free) ∧
    Ownership (fun i => {b | b ∈ bs i}) {b | b ∈ free} P
  /-- `putc` stores the character, unless it needs a block and there is none. -/
  putc : ∀ c i, ((s.putc c i).1 = 0 ∧ (s.putc c i).2.put = update s.put i (s.put i ++ [c]) ∧
      (s.putc c i).2.taken = s.taken) ∨
    (((s.q i).c_cl = 0 ∨ (s.q i).c_cl % 8 = 0) ∧ s.cfreelist = 0 ∧ s.putc c i = (-1, s))

/-- Each queue has the characters that went in and have not come out. -/
theorem Inv.fifo {P : Set ℕ} {s : TtySys ι} {lay : ι → Layout} {free : List ℕ}
    (h : Inv P s lay free) : Fifo P s where
  history i := by rw [h.pending_eq, h.history i]
  count := h.cc_eq
  getc i := (h.getc i).1
  blocks := by
    refine ⟨fun i => (lay i).bs, free, fun i => ⟨(lay i).bs.getLastD 0, ?_⟩, h.freeList, h.owned⟩
    have hq := h.queue i
    have hfirst : blockOf (s.q i).c_cf = (lay i).bs.headD 0 := by
      rcases Nat.eq_zero_or_pos (lay i).n with hn | hn
      · rw [hq.cf_zero_iff.mpr hn, hq.nil_iff.mpr hn]
        rfl
      · obtain ⟨b, bs, hbs, -, hblock⟩ := hq.first_block (m := (lay i).n - 1) (by omega)
        rw [hblock, hbs, List.headD_cons]
    rw [hfirst]
    exact hq.links
  putc c i := by
    rcases h.putc c i with hfail | ⟨hret, hput, htaken, -⟩
    · exact .inr hfail
    · exact .inl ⟨hret, hput, htaken⟩

/-- The character queues are FIFO queues over the pool that `cinit` makes, whatever is put and
taken. -/
theorem fifo_of_reachable {cfree : ℕ} (hcfree : 0 < cfree) {c_next : ℕ → ℕ} {info : ℕ → Byte}
    {s : TtySys ι}
    (hs : Reachable step (fun _ _ => True) (TtySys.cinit cfree (bss c_next info)) s) :
    Fifo (pool cfree) s := by
  obtain ⟨lay, free, h⟩ := hs.invariant (P := fun s => ∃ lay free, Inv (pool cfree) s lay free)
    ⟨_, inv_cinit hcfree c_next info⟩ fun s a s' ⟨_, _, h⟩ _ hs' => h.step hs'
  exact h.fifo

end

/-- Two queues, one of them longer than a block. -/
def putAndGet : List (TtyAct Bool) :=
  [.putc 1 true, .putc 2 true, .putc 3 true, .putc 4 true, .putc 5 true, .putc 6 true,
    .putc 7 true, .putc 8 false, .getc true, .getc false, .getc false]

/-- Two queues share the blocks. -/
theorem fifo_of_reachable_putAndGet : ∃ s,
    runSteps step putAndGet (TtySys.cinit 0x1003 (bss (fun _ => 0) fun _ => 0)) = some s ∧
      Fifo (pool 0x1003) s := by
  obtain ⟨s, hs⟩ : ∃ s, runSteps step putAndGet
      (TtySys.cinit 0x1003 (bss (fun _ => 0) fun _ => 0)) = some s := ⟨_, rfl⟩
  exact ⟨s, hs, fifo_of_reachable (by decide) (Reachable.refl.of_runSteps hs)⟩

end UnixV6.Tty
