import Mathlib

/-!
# Trees of pointers in a store

The nodes of a tree have names `R` of a fixed shape: a name is at the top, or it is a place in the node
of another name. A store keeps the pointers: `top` those at the top, `word b k` the place `k` of a
block `b`; 0 is no pointer. `IsTree` says that `node` is what the pointers lead to.

A tree whose nodes are distinct blocks changes at one name when a pointer to a fresh, empty block is
stored in the place of that name.
-/

open Function

variable {R B : Type*} [DecidableEq R] [DecidableEq B] [Zero B]

/-- Where the names are. -/
structure TreeShape (R : Type*) where
  parent : R → Option (R × ℕ)
  rank : R → ℕ
  rank_lt : ∀ {r q k}, parent r = some (q, k) → rank q < rank r
  inj : ∀ {r r' x}, parent r = some x → parent r' = some x → r = r'

/-- What the place of a name holds. -/
def TreeShape.follow (S : TreeShape R) (top : R → B) (word : B → ℕ → B) (node : R → B) (r : R) : B :=
  match S.parent r with
  | none => top r
  | some (q, k) => if node q = 0 then 0 else word (node q) k

/-- Every name leads to its node. -/
def IsTree (S : TreeShape R) (top : R → B) (word : B → ℕ → B) (node : R → B) : Prop :=
  ∀ r, node r = S.follow top word node r

/-- No block is in two places. -/
def NodesDistinct (node : R → B) : Prop := ∀ r r', node r ≠ 0 → node r = node r' → r = r'

namespace IsTree

variable {S : TreeShape R} {top top' : R → B} {word word' : B → ℕ → B} {node node' : R → B} {b : B}

omit [DecidableEq R] in
/-- The pointers determine the nodes. -/
theorem unique (h : IsTree S top word node) (h' : IsTree S top word node') : node = node' := by
  funext r
  -- The parent of a name has a smaller rank.
  induction hn : S.rank r using Nat.strong_induction_on generalizing r with
  | _ n ih =>
    rw [h r, h' r]
    unfold TreeShape.follow
    split
    · rfl
    · next q k hq => rw [ih (S.rank q) (hn ▸ S.rank_lt hq) q rfl]

omit [DecidableEq R] in
/-- Only the places of names count. -/
theorem congr (h : IsTree S top word node)
    (hword : ∀ r q k, S.parent r = some (q, k) → node q ≠ 0 → word' (node q) k = word (node q) k) :
    IsTree S top word' node := by
  intro r
  rw [h r]
  unfold TreeShape.follow
  split
  · rfl
  · next q k hq =>
    split
    · rfl
    · next h0 => rw [hword r q k hq h0]

omit [DecidableEq R] in
/-- Nodes stay where they are if only places without a pointer are written. -/
theorem node_eq_of_ne (h : IsTree S top word node) (h' : IsTree S top word' node')
    (hword : ∀ b k, word b k ≠ 0 → word' b k = word b k) {r : R} (h0 : node r ≠ 0) :
    node' r = node r := by
  induction hn : S.rank r using Nat.strong_induction_on generalizing r with
  | _ n ih =>
    rw [h r] at h0 ⊢
    rw [h' r]
    unfold TreeShape.follow at h0 ⊢
    split at h0
    · rfl
    · next q k hq =>
      split at h0
      · exact absurd rfl h0
      · next hq0 => rw [ih (S.rank q) (hn ▸ S.rank_lt hq) hq0 rfl, if_neg hq0, if_neg hq0, hword _ k h0]

/-- The place of the name holds a fresh, empty block; all other places are as before. -/
theorem plant (h : IsTree S top word node) {r : R} (h0 : node r = 0) (hb : b ≠ 0)
    (hempty : ∀ k, word' b k = 0)
    (hself : S.follow top' word' node r = b)
    (hother : ∀ r', r' ≠ r → S.follow top' word' node r' = S.follow top word node r') :
    IsTree S top' word' (update node r b) := by
  -- A place in the new node is empty now, and was nowhere before.
  have hfollow : ∀ r', (∀ k, S.parent r' ≠ some (r, k)) →
      S.follow top' word' (update node r b) r' = S.follow top' word' node r' := by
    intro r' hr'
    unfold TreeShape.follow
    split
    · rfl
    · next q k hq =>
      have hqr : q ≠ r := by
        rintro rfl
        exact hr' k hq
      rw [update_of_ne hqr]
  intro r'
  by_cases hchild : ∃ k, S.parent r' = some (r, k)
  · obtain ⟨k, hk⟩ := hchild
    have hne : r' ≠ r := by
      rintro rfl
      exact absurd (S.rank_lt hk) (lt_irrefl _)
    have hbefore : node r' = 0 := by
      rw [h r', TreeShape.follow, hk]
      exact if_pos h0
    rw [update_of_ne hne, hbefore]
    simp only [TreeShape.follow, hk, update_self, if_neg hb, hempty]
  · rw [hfollow r' (not_exists.mp hchild)]
    rcases eq_or_ne r' r with rfl | hne
    · rw [update_self, hself]
    · rw [update_of_ne hne, hother r' hne, ← h r']

/-- A pointer at the top. -/
theorem plant_top (h : IsTree S top word node) {r : R} (hr : S.parent r = none) (h0 : node r = 0)
    (hb : b ≠ 0) (hempty : ∀ k, word b k = 0) :
    IsTree S (update top r b) word (update node r b) := by
  refine h.plant h0 hb hempty ?_ fun r' hne => ?_
  · simp only [TreeShape.follow, hr, update_self]
  · unfold TreeShape.follow
    split
    · rw [update_of_ne hne]
    · rfl

/-- A pointer in a node. -/
theorem plant_word (h : IsTree S top word node) (hdist : NodesDistinct node) {r q : R} {k : ℕ}
    (hr : S.parent r = some (q, k)) (hq : node q ≠ 0) (h0 : node r = 0) (hb : b ≠ 0)
    (hempty : ∀ k, word' b k = 0) (hself : word' (node q) k = b)
    (hother : ∀ q' k', node q' ≠ 0 → (node q' ≠ node q ∨ k' ≠ k) →
      word' (node q') k' = word (node q') k') :
    IsTree S top word' (update node r b) := by
  refine h.plant h0 hb hempty ?_ fun r' hne => ?_
  · simp only [TreeShape.follow, hr, if_neg hq, hself]
  · unfold TreeShape.follow
    split
    · rfl
    · next q' k' hq' =>
      split
      · rfl
      · next hq0 =>
        refine hother q' k' hq0 (or_iff_not_imp_left.mpr fun hsame hk => hne ?_)
        obtain rfl := hdist q' q hq0 (not_not.mp hsame)
        subst hk
        exact S.inj hq' hr

end IsTree

omit [DecidableEq B] in
/-- A fresh node is in no other place. -/
theorem NodesDistinct.plant {node : R → B} (h : NodesDistinct node) {r : R} {b : B}
    (hfresh : ∀ r', node r' ≠ b) : NodesDistinct (update node r b) := by
  intro r₁ r₂ hr₁ heq
  rcases eq_or_ne r₁ r with rfl | h₁
  · rcases eq_or_ne r₂ r₁ with rfl | h₂
    · rfl
    · rw [update_self, update_of_ne h₂] at heq
      exact absurd heq.symm (hfresh r₂)
  · rw [update_of_ne h₁] at hr₁ heq
    rcases eq_or_ne r₂ r with rfl | h₂
    · rw [update_self] at heq
      exact absurd heq (hfresh r₁)
    · rw [update_of_ne h₂] at heq
      exact h r₁ r₂ hr₁ heq
