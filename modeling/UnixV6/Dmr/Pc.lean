import UnixV6.Dmr.Swap

/-!
# Access to process images (`dmr/pc.c`, `dmr/m86.S`)

The kernel reaches the image of a process through the segment of its first page. Offsets are plain
numbers: no access here wraps at the end of a segment.
-/

open Function

namespace UnixV6

/-- Data segment page count, also the offset of the code segment. -/
def DSIZE : ℕ := 16

/-- Top of the user stack and start of the user structure. -/
def USTACK : ℕ := 0xFC00

/-- A page as a segment: `page*(PAGESIZ/16)`. -/
def segOf (page : ℕ) : ℕ := page * 256

def rdbyte (mem : Core) (off seg : ℕ) : Byte := mem (linear off seg)

def wrbyte (mem : Core) (off seg : ℕ) (val : Byte) : Core := update mem (linear off seg) val

/-- `rep movsw` for `n` words. -/
def movsw (dst dseg src sseg : ℕ) : ℕ → Core → Core
  | 0, mem => mem
  | n + 1, mem => movsw (dst + 2) dseg (src + 2) sseg n (wrword mem dst dseg (rdword mem src sseg))

def fmemcpy (dst dseg src sseg n : ℕ) (mem : Core) : Core :=
  let mem := movsw dst dseg src sseg (n / 2) mem
  if n % 2 = 0 then mem else wrbyte mem (dst + n - 1) dseg (rdbyte mem (src + n - 1) sseg)

/-! ## Words -/

theorem linear_add (off n seg : ℕ) : linear (off + n) seg = linear off seg + n := by
  rw [linear, linear, Nat.add_assoc]

theorem wrword_apply (mem : Core) (off seg : ℕ) (val : Word) (x : ℕ) :
    wrword mem off seg val x =
      if x = linear off seg + 1 then hibyte val
      else if x = linear off seg then lobyte val else mem x := by
  simp only [wrword, update_apply]

theorem hibyte_append_lobyte (w : Word) : hibyte w ++ lobyte w = w := by
  ext i hi
  simp only [hibyte, lobyte, BitVec.getElem_append, BitVec.getElem_extractLsb']
  split
  · simp [BitVec.getLsbD_eq_getElem hi]
  · rw [show 8 + (i - 8) = i from by omega, BitVec.getLsbD_eq_getElem hi]

@[simp]
theorem rdword_wrword (mem : Core) (off seg : ℕ) (val : Word) :
    rdword (wrword mem off seg val) off seg = val := by
  have hne : ¬ linear off seg = linear off seg + 1 := by omega
  simp only [rdword, wrword_apply, if_true, if_neg hne, hibyte_append_lobyte]

/-- Every byte outside the word is unchanged. -/
theorem wrword_outside {mem : Core} {off seg x : ℕ} {val : Word}
    (h : x < linear off seg ∨ linear off seg + 2 ≤ x) : wrword mem off seg val x = mem x := by
  rw [wrword_apply, if_neg (by omega), if_neg (by omega)]

/-- Two images that agree on two bytes agree on the word. -/
theorem rdword_congr {mem mem' : Core} {off off' seg seg' : ℕ}
    (h₀ : mem (linear off seg) = mem' (linear off' seg'))
    (h₁ : mem (linear off seg + 1) = mem' (linear off' seg' + 1)) :
    rdword mem off seg = rdword mem' off' seg' := by
  rw [rdword, rdword, h₀, h₁]

/-- So is a word elsewhere in the segment. -/
theorem rdword_wrword_ne {mem : Core} {off off' seg : ℕ} {val : Word}
    (h : off' + 2 ≤ off ∨ off + 2 ≤ off') :
    rdword (wrword mem off seg val) off' seg = rdword mem off' seg := by
  apply rdword_congr
  · exact wrword_outside (by simp only [linear]; omega)
  · exact wrword_outside (by simp only [linear]; omega)

/-! ## Copies -/

/-- A copy between disjoint places: the bytes of the destination are those of the source, the
others are unchanged. -/
theorem movsw_apply {dst dseg src sseg : ℕ} {n : ℕ} {mem : Core}
    (h : linear dst dseg + 2 * n ≤ linear src sseg ∨ linear src sseg + 2 * n ≤ linear dst dseg)
    (x : ℕ) :
    movsw dst dseg src sseg n mem x =
      if linear dst dseg ≤ x ∧ x < linear dst dseg + 2 * n then
        mem (x - linear dst dseg + linear src sseg)
      else mem x := by
  induction n generalizing dst src mem with
  | zero => rw [movsw, if_neg (by omega)]
  | succ n ih =>
    rw [movsw, ih (by rw [linear_add, linear_add]; omega), linear_add, linear_add]
    by_cases htail : linear dst dseg + 2 ≤ x ∧ x < linear dst dseg + 2 + 2 * n
    · -- a later word, read after the first one was stored
      rw [if_pos htail, if_pos (by omega), wrword_outside (by omega)]
      congr 1
      omega
    · rw [if_neg htail, wrword_apply]
      by_cases hhi : x = linear dst dseg + 1
      · rw [if_pos hhi, if_pos (by omega), hibyte_rdword]
        congr 1
        omega
      · rw [if_neg hhi]
        by_cases hlo : x = linear dst dseg
        · rw [if_pos hlo, if_pos (by omega), lobyte_rdword]
          congr 1
          omega
        · rw [if_neg hlo, if_neg (by omega)]

end UnixV6
