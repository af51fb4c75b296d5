import Mathlib.Data.List.Basic

/-!
# Strings of a user program (`usr/ulib.c`)

A string in memory is what is there from its address on; it ends before the first `NUL`.
-/

namespace UnixV6.Usr

/-- A character of a user program. -/
abbrev Chr : Type := BitVec 8

/-- A character constant. -/
def ascii (ch : Char) : Chr := BitVec.ofNat 8 ch.toNat

/-- `strchr`: where `c` is in the string, if it is there. -/
def strchr (c : Chr) : List Chr → Option ℕ
  | [] => none
  | t :: s => if t = 0 then none else if t = c then some 0 else (strchr c s).map (· + 1)

variable {c : Chr} {s : List Chr}

theorem strchr_eq_none (h0 : 0 ∉ s) : strchr c s = none ↔ c ∉ s := by
  induction s with
  | nil => simp [strchr]
  | cons t s ih =>
    obtain ⟨ht, hs⟩ := not_or.mp (List.mem_cons.not.mp h0)
    rw [strchr, if_neg (Ne.symm ht)]
    split_ifs with hc
    · simp [hc]
    · rw [Option.map_eq_none_iff, ih hs, List.mem_cons, not_or]
      exact (and_iff_right (Ne.symm hc)).symm

/-- What is in front of the character does not contain it. -/
theorem strchr_eq_some {q : ℕ} (h : strchr c s = some q) :
    c ∉ s.take q ∧ 0 ∉ s.take q ∧ s = s.take q ++ c :: s.drop (q + 1) := by
  induction s generalizing q with
  | nil => cases h
  | cons t s ih =>
    rw [strchr] at h
    split_ifs at h with ht hc
    · obtain rfl : 0 = q := Option.some.inj h
      simp [hc]
    · obtain ⟨q, hq, rfl⟩ := Option.map_eq_some_iff.mp h
      obtain ⟨hno, hnul, heq⟩ := ih hq
      simp only [List.take_succ_cons, List.drop_succ_cons, List.mem_cons, not_or,
        List.cons_append]
      exact ⟨⟨Ne.symm hc, hno⟩, ⟨Ne.symm ht, hnul⟩, congrArg (t :: ·) heq⟩

end UnixV6.Usr
