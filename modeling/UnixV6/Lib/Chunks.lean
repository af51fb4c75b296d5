import Mathlib

/-!
# A list in pieces of one length

`Chunked n L xs` says that the lists `L` are the pieces of `xs`: each has `n` elements, but the last
one, which may have less and is not empty. `List.toChunks` makes such pieces.
-/

variable {α : Type} {n : ℕ}

inductive Chunked (n : ℕ) : List (List α) → List α → Prop
  | nil : Chunked n [] []
  | last {c : List α} (hpos : 0 < c.length) (hle : c.length ≤ n) : Chunked n [c] c
  | cons {c xs : List α} {L : List (List α)} (hc : c.length = n) (h : Chunked n L xs) :
      Chunked n (c :: L) (c ++ xs)

namespace Chunked

variable {L : List (List α)} {xs : List α}

theorem flatten (h : Chunked n L xs) : L.flatten = xs := by
  induction h with
  | nil => rfl
  | last => simp
  | cons _ _ ih => rw [List.flatten_cons, ih]

/-- Where an element is found. -/
theorem getD (h : Chunked n L xs) (hn : 0 < n) (d : α) {i : ℕ} (hi : i < xs.length) :
    i / n < L.length ∧ (L.getD (i / n) []).getD (i % n) d = xs.getD i d := by
  induction h generalizing i with
  | nil => exact absurd hi (Nat.not_lt_zero i)
  | last _ hle =>
    have hlt := hi.trans_le hle
    rw [Nat.div_eq_of_lt hlt, Nat.mod_eq_of_lt hlt]
    exact ⟨Nat.zero_lt_one, rfl⟩
  | @cons c xs L hc _ ih =>
    rcases lt_or_ge i n with hlt | hge
    · rw [Nat.div_eq_of_lt hlt, Nat.mod_eq_of_lt hlt, List.getD_append _ _ _ _ (hc ▸ hlt)]
      exact ⟨Nat.succ_pos _, rfl⟩
    · rw [List.length_append, hc] at hi
      obtain ⟨hdiv, hget⟩ := ih (i := i - n) (by omega)
      have hstep : i / n = (i - n) / n + 1 := by
        rw [Nat.div_eq_sub_div hn hge]
      rw [List.getD_append_right _ _ _ _ (hc ▸ hge), hc, hstep, Nat.mod_eq_sub_mod hge]
      exact ⟨Nat.succ_lt_succ hdiv, hget⟩

/-- The first piece. -/
theorem first (h : Chunked n L xs) (hxs : xs ≠ []) :
    ∃ L', L = xs.take n :: L' ∧ Chunked n L' (xs.drop n) := by
  cases h with
  | nil => exact absurd rfl hxs
  | last _ hle =>
    rw [List.take_of_length_le hle, List.drop_of_length_le hle]
    exact ⟨[], rfl, .nil⟩
  | cons hlen h =>
    rw [List.take_left' hlen, List.drop_left' hlen]
    exact ⟨_, rfl, h⟩

/-- Pieces of a constant list. -/
theorem eq_replicate {k : ℕ} {a : α} (hn : 0 < n) (h : Chunked n L (List.replicate (n * k) a)) :
    L = List.replicate k (List.replicate n a) := by
  induction k generalizing L with
  | zero =>
    generalize hxs : List.replicate (n * 0) a = xs at h
    have hlen := congrArg List.length hxs
    rw [Nat.mul_zero, List.length_replicate] at hlen
    cases h with
    | nil => rfl
    | last hpos => omega
    | cons hc =>
      rw [List.length_append] at hlen
      omega
  | succ k ih =>
    have hpos : 0 < n * (k + 1) := Nat.mul_pos hn (Nat.succ_pos k)
    obtain ⟨L', rfl, h'⟩ := h.first fun hnil => by
      rw [List.replicate_eq_nil_iff] at hnil
      omega
    rw [List.drop_replicate, Nat.mul_succ, Nat.add_sub_cancel] at h'
    rw [List.take_replicate, min_eq_left (Nat.le_mul_of_pos_right n (Nat.succ_pos k)), ih h',
      List.replicate_succ]

end Chunked

/-- What the loop of `List.toChunks` accumulates. -/
theorem List.chunked_go (ys : List α) {a : Array α} (parts : Array (List α)) (hpos : 0 < a.size)
    (hle : a.size ≤ n) : ∃ L, List.toChunks.go n ys a parts = parts.toList ++ L ∧
      Chunked n L (a.toList ++ ys) := by
  induction ys generalizing a parts with
  | nil =>
    refine ⟨[a.toList], ?_, ?_⟩
    · simp [List.toChunks.go]
    · rw [List.append_nil]
      exact .last hpos hle
  | cons y ys ih =>
    unfold List.toChunks.go
    split
    · -- the chunk is full, and `y` begins the next one
      next hfull =>
      obtain ⟨L, hgo, hL⟩ := ih (a := #[y]) (parts.push a.toList) Nat.zero_lt_one
        (Nat.succ_le_of_lt (hpos.trans_le hle))
      refine ⟨a.toList :: L, ?_, .cons ?_ hL⟩
      · rw [Array.toList_push, List.append_assoc] at hgo
        exact hgo
      · simpa using hfull
    · -- `y` goes into the chunk
      next hroom =>
      have hlt : a.size < n := by
        refine lt_of_le_of_ne hle ?_
        simpa using hroom
      obtain ⟨L, hgo, hL⟩ := ih (a := a.push y) parts (by simp) (by simpa using hlt)
      refine ⟨L, hgo, ?_⟩
      rwa [Array.toList_push, List.append_assoc] at hL

theorem List.chunked_toChunks (hn : 0 < n) (xs : List α) : Chunked n (xs.toChunks n) xs := by
  obtain ⟨n, rfl⟩ := Nat.exists_eq_succ_of_ne_zero hn.ne'
  cases xs with
  | nil => exact .nil
  | cons x xs =>
    obtain ⟨L, hgo, hL⟩ := List.chunked_go (n := n + 1) xs (a := #[x]) #[] Nat.zero_lt_one hn
    rw [List.nil_append] at hgo
    have hcons : (x :: xs).toChunks (n + 1) = List.toChunks.go (n + 1) xs #[x] #[] := rfl
    rw [hcons, hgo]
    exact hL
