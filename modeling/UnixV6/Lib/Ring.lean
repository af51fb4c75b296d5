import Mathlib

/-!
# Linked lists in a heap of nodes

The link fields of a heap are functions from nodes to nodes. `LinkRing next prev h l` says that from
the head `h` on the fields `next` run through the nodes of `l`, in this order, and back to `h`, and
that `prev` runs the other way. `LinkQueue next first last l null` is a singly linked queue whose
last node is remembered.

An edit of such a list writes at most four fields. The rules below say which list there is after an
edit, and `congr` that fields of other nodes do not matter.
-/

open Function

variable {α : Type*} {next prev next' prev' : α → α}

/-! ## Links -/

/-- Neighbours in `l` are linked both ways. -/
def Links (next prev : α → α) (l : List α) : Prop :=
  l.IsChain fun x y => next x = y ∧ prev y = x

/-- A list that follows `next` up to a node that is not in it is determined by its first node. -/
theorem List.IsChain.next_unique {l l' : List α} {e : α} (h : (l ++ [e]).IsChain fun x y => next x = y)
    (h' : (l' ++ [e]).IsChain fun x y => next x = y) (hl : e ∉ l) (hl' : e ∉ l')
    (hhead : (l ++ [e]).head? = (l' ++ [e]).head?) : l = l' := by
  induction l generalizing l' with
  | nil =>
    cases l' with
    | nil => rfl
    | cons y l' =>
      obtain rfl : e = y := Option.some.inj hhead
      exact absurd List.mem_cons_self hl'
  | cons x l ih =>
    cases l' with
    | nil =>
      obtain rfl : x = e := Option.some.inj hhead
      exact absurd List.mem_cons_self hl
    | cons y l' =>
      obtain rfl : x = y := Option.some.inj hhead
      rw [List.cons_append, List.isChain_cons] at h h'
      -- both lists go on with the node behind `x`
      have hnext : ∀ m : List α, (∀ y ∈ (m ++ [e]).head?, next x = y) →
          (m ++ [e]).head? = some (next x) := by
        intro m hm
        obtain ⟨z, n, hz⟩ : ∃ z n, m ++ [e] = z :: n := by
          cases m <;> exact ⟨_, _, rfl⟩
        rw [hz] at hm ⊢
        exact congrArg some (hm z rfl).symm
      rw [ih h.2 h'.2 (fun hmem => hl (List.mem_cons_of_mem _ hmem))
        (fun hmem => hl' (List.mem_cons_of_mem _ hmem)) ((hnext l h.1).trans (hnext l' h'.1).symm)]

namespace Links

theorem singleton (x : α) : Links next prev [x] :=
  List.isChain_singleton x

/-- The first two elements are linked, and so are the others. -/
theorem cons_cons {l : List α} {x y : α} :
    Links next prev (x :: y :: l) ↔ (next x = y ∧ prev y = x) ∧ Links next prev (y :: l) :=
  List.isChain_cons_cons

/-- Links of a concatenation: both parts and the seam. -/
theorem append {l₁ l₂ : List α} {y z : α} :
    Links next prev (l₁ ++ [y] ++ z :: l₂) ↔
      Links next prev (l₁ ++ [y]) ∧ Links next prev (z :: l₂) ∧ next y = z ∧ prev z = y := by
  unfold Links
  rw [List.isChain_append]
  simp

/-- Only `next` of the nodes before the last and `prev` of those after the first are read. -/
theorem congr {l : List α} (h : Links next prev l) (hnext : ∀ y ∈ l.dropLast, next' y = next y)
    (hprev : ∀ y ∈ l.tail, prev' y = prev y) : Links next' prev' l := by
  induction l with
  | nil => exact List.isChain_nil
  | cons x l ih =>
    cases l with
    | nil => exact singleton x
    | cons y l =>
      rw [cons_cons] at h ⊢
      obtain ⟨⟨hn, hp⟩, hl⟩ := h
      refine ⟨⟨?_, ?_⟩, ih hl ?_ ?_⟩
      · rw [hnext x (by simp), hn]
      · rw [hprev y (by simp), hp]
      · intro z hz
        apply hnext
        simp [hz]
      · intro z hz
        apply hprev
        exact List.mem_cons_of_mem _ hz

end Links

/-! ## Rings -/

/-- The circular doubly linked list of the nodes `l`, with head `h`. -/
structure LinkRing (next prev : α → α) (h : α) (l : List α) : Prop where
  nodup : (h :: l).Nodup
  links : Links next prev (h :: l ++ [h])

namespace LinkRing

variable {h x : α} {l l₁ l₂ : List α}

theorem head_notMem (hr : LinkRing next prev h l) : h ∉ l :=
  (List.nodup_cons.mp hr.nodup).1

theorem nodup_tail (hr : LinkRing next prev h l) : l.Nodup :=
  (List.nodup_cons.mp hr.nodup).2

/-- The empty ring: the head is linked to itself. -/
theorem nil_iff : LinkRing next prev h [] ↔ next h = h ∧ prev h = h := by
  constructor
  · intro hr
    exact (Links.cons_cons.mp hr.links).1
  · intro hr
    exact ⟨List.nodup_singleton h, Links.cons_cons.mpr ⟨hr, Links.singleton h⟩⟩

/-- The link fields determine the ring. -/
theorem unique (hr : LinkRing next prev h l) {l' : List α} (hr' : LinkRing next prev h l') :
    l = l' := by
  have hchain : ∀ {m : List α}, LinkRing next prev h m →
      (m ++ [h]).IsChain (fun x y => next x = y) ∧ (m ++ [h]).head? = some (next h) := by
    intro m hm
    have hlinks : (h :: (m ++ [h])).IsChain fun x y => next x = y :=
      hm.links.imp fun _ _ hxy => hxy.1
    rw [List.isChain_cons] at hlinks
    obtain ⟨z, n, hz⟩ : ∃ z n, m ++ [h] = z :: n := by
      cases m <;> exact ⟨_, _, rfl⟩
    rw [hz] at hlinks ⊢
    exact ⟨hlinks.2, congrArg some (hlinks.1 z rfl).symm⟩
  exact (hchain hr).1.next_unique (hchain hr').1 hr.head_notMem hr'.head_notMem
    ((hchain hr).2.trans (hchain hr').2.symm)

/-- Fields of nodes that are not in the ring do not matter. -/
theorem congr (hr : LinkRing next prev h l) (hnext : ∀ y ∈ h :: l, next' y = next y)
    (hprev : ∀ y ∈ h :: l, prev' y = prev y) : LinkRing next' prev' h l := by
  refine ⟨hr.nodup, hr.links.congr ?_ ?_⟩
  · intro y hy
    apply hnext
    rwa [List.dropLast_concat] at hy
  · intro y hy
    apply hprev
    simpa [or_comm] using hy

/-- The nodes around a place in the ring. -/
theorem exists_around (hnodup : (h :: (l₁ ++ l₂)).Nodup) :
    ∃ m₁ y z m₂, h :: l₁ = m₁ ++ [y] ∧ l₂ ++ [h] = z :: m₂ ∧ y ∉ m₁ ∧ z ∉ m₂ ∧ z ∉ l₁ ∧ y ∉ l₂ := by
  obtain ⟨m₁, y, hy⟩ := (h :: l₁).eq_nil_or_concat'.resolve_left (by simp)
  obtain ⟨z, m₂, hz⟩ : ∃ z m₂, l₂ ++ [h] = z :: m₂ := by
    cases l₂ <;> exact ⟨_, _, rfl⟩
  have hsplit : (h :: l₁ ++ l₂).Nodup := hnodup
  have hrot : (l₁ ++ (l₂ ++ [h])).Nodup := by
    rw [← List.append_assoc]
    exact List.nodup_append_comm.mp hnodup
  have hm₁ : (m₁ ++ [y]).Nodup := hy ▸ hsplit.of_append_left
  have hm₂ : (z :: m₂).Nodup := hz ▸ hrot.of_append_right
  refine ⟨m₁, y, z, m₂, hy, hz, ?_, (List.nodup_cons.mp hm₂).1, ?_, ?_⟩
  · intro hmem
    exact List.disjoint_of_nodup_append hm₁ hmem (by simp)
  · intro hmem
    exact List.disjoint_of_nodup_append hrot hmem (by simp [hz])
  · exact List.disjoint_of_nodup_append hsplit (by simp [hy])

/-- A ring seen from a place in it. -/
theorem links_iff {m₁ m₂ : List α} {y z : α} (hy : h :: l₁ = m₁ ++ [y])
    (hz : l₂ ++ [h] = z :: m₂) :
    Links next prev (h :: (l₁ ++ l₂) ++ [h]) ↔
      Links next prev (h :: l₁) ∧ Links next prev (l₂ ++ [h]) ∧ next y = z ∧ prev z = y := by
  have hlist : h :: (l₁ ++ l₂) ++ [h] = m₁ ++ [y] ++ z :: m₂ := by
    rw [← hy, ← hz]
    simp
  rw [hlist, Links.append, hy, hz]

/-- A ring seen from one of its nodes. -/
theorem links_node_iff {m₁ m₂ : List α} {y z : α} (hy : h :: l₁ = m₁ ++ [y])
    (hz : l₂ ++ [h] = z :: m₂) :
    Links next prev (h :: (l₁ ++ x :: l₂) ++ [h]) ↔
      Links next prev (h :: l₁) ∧ Links next prev (l₂ ++ [h]) ∧ (next y = x ∧ prev x = y) ∧
        next x = z ∧ prev z = x := by
  have hlist : h :: (l₁ ++ x :: l₂) ++ [h] = m₁ ++ [y] ++ x :: (z :: m₂) := by
    rw [← hy, ← hz]
    simp
  rw [hlist, Links.append, Links.cons_cons, hy, hz]
  constructor
  · rintro ⟨h₁, ⟨hx, h₂⟩, hs⟩
    exact ⟨h₁, h₂, hs, hx⟩
  · rintro ⟨h₁, h₂, hs, hx⟩
    exact ⟨h₁, ⟨hx, h₂⟩, hs⟩

/-- The link fields are inverse to each other on the ring. -/
theorem prev_next (hr : LinkRing next prev h l) {x : α} (hx : x ∈ h :: l) :
    next x ∈ h :: l ∧ prev (next x) = x := by
  obtain ⟨l₁, l₂, hl⟩ := List.append_of_mem hx
  obtain ⟨z, m₂, hz⟩ : ∃ z m₂, l₂ ++ [h] = z :: m₂ := by
    cases l₂ <;> exact ⟨_, _, rfl⟩
  have hclosed : h :: l ++ [h] = l₁ ++ [x] ++ z :: m₂ := by
    rw [hl, ← hz]
    simp
  have hlinks := hr.links
  rw [hclosed, Links.append] at hlinks
  obtain ⟨-, -, hn, hp⟩ := hlinks
  have hmem : z ∈ h :: l := by
    have : z ∈ l₂ ++ [h] := by simp [hz]
    rw [hl]
    rcases List.mem_append.mp this with hl₂ | hh
    · simp [hl₂]
    · rw [← hl, List.mem_singleton.mp hh]
      exact List.mem_cons_self
  rw [hn]
  exact ⟨hmem, hp⟩

/-- After the element before comes the element. -/
theorem next_prev (hr : LinkRing next prev h l) {x : α} (hx : x ∈ h :: l) :
    prev x ∈ h :: l ∧ next (prev x) = x := by
  obtain ⟨l₁, l₂, hl⟩ : ∃ l₁ l₂, l ++ [h] = l₁ ++ x :: l₂ := by
    apply List.append_of_mem
    simpa [or_comm] using hx
  obtain ⟨m₁, y, hy⟩ := (h :: l₁).eq_nil_or_concat'.resolve_left (by simp)
  have hclosed : h :: l ++ [h] = m₁ ++ [y] ++ x :: l₂ := by
    rw [← hy, List.cons_append, hl]
    simp
  have hlinks := hr.links
  rw [hclosed, Links.append] at hlinks
  obtain ⟨-, -, hn, hp⟩ := hlinks
  have hmem : y ∈ h :: l := by
    have : y ∈ h :: l ++ [h] := by simp [hclosed]
    simpa [or_comm] using this
  rw [hp]
  exact ⟨hmem, hn⟩

theorem prev_ne (hr : LinkRing next prev h l) (hx : x ∈ l) : prev x ≠ x := by
  obtain ⟨l₁, l₂, rfl⟩ := List.append_of_mem hx
  have hsub : (h :: (l₁ ++ l₂)).Nodup := hr.nodup.sublist (by simp)
  obtain ⟨m₁, y, z, m₂, hy, hz, -⟩ := exists_around hsub
  obtain ⟨-, -, ⟨-, hpx⟩, -⟩ := (links_node_iff hy hz).mp hr.links
  have hsplit : (h :: l₁ ++ x :: l₂).Nodup := hr.nodup
  rw [hpx]
  rintro rfl
  exact List.disjoint_of_nodup_append hsplit (by simp [hy]) List.mem_cons_self

/-- The node that comes first. -/
theorem next_head (hr : LinkRing next prev h (x :: l)) : next h = x :=
  (Links.cons_cons.mp hr.links).1.1

theorem next_head_eq_iff (hr : LinkRing next prev h l) : next h = h ↔ l = [] := by
  cases l with
  | nil => simpa using (nil_iff.mp hr).1
  | cons x l =>
    have hx : h ≠ x := by
      have := hr.head_notMem
      simp only [List.mem_cons, not_or] at this
      exact this.1
    rw [hr.next_head]
    simp [hx.symm]

variable [DecidableEq α]

/-- Unlink a node: its neighbours are linked to each other. -/
theorem unlink (hr : LinkRing next prev h l) (hx : x ∈ l) :
    LinkRing (update next (prev x) (next x)) (update prev (next x) (prev x)) h (l.erase x) := by
  obtain ⟨l₁, l₂, rfl⟩ := List.append_of_mem hx
  have hsub : (h :: (l₁ ++ l₂)).Nodup := hr.nodup.sublist (by simp)
  have herase : (l₁ ++ x :: l₂).erase x = l₁ ++ l₂ := by
    rw [List.erase_append_right _ ?_, List.erase_cons_head]
    intro hmem
    exact List.disjoint_of_nodup_append hr.nodup_tail hmem List.mem_cons_self
  obtain ⟨m₁, y, z, m₂, hy, hz, hy₁, hz₂, hz₁, hy₂⟩ := exists_around hsub
  obtain ⟨h₁, h₂, ⟨-, hpx⟩, hnx, -⟩ := (links_node_iff hy hz).mp hr.links
  rw [herase, hpx, hnx]
  refine ⟨hsub, (links_iff hy hz).mpr ⟨h₁.congr ?_ ?_, h₂.congr ?_ ?_, update_self .., update_self ..⟩⟩
  · intro w hw
    rw [hy, List.dropLast_concat] at hw
    rw [update_of_ne (ne_of_mem_of_not_mem hw hy₁)]
  · intro w hw
    rw [update_of_ne (ne_of_mem_of_not_mem hw hz₁)]
  · intro w hw
    rw [List.dropLast_concat] at hw
    rw [update_of_ne (ne_of_mem_of_not_mem hw hy₂)]
  · intro w hw
    rw [hz] at hw
    rw [update_of_ne (ne_of_mem_of_not_mem hw hz₂)]

omit [DecidableEq α] in
/-- Link a new node in between the neighbours `y` and `z`. -/
theorem link {m₁ m₂ : List α} {y z : α} (hr : LinkRing next prev h (l₁ ++ l₂))
    (hx : x ∉ h :: (l₁ ++ l₂)) (hy : h :: l₁ = m₁ ++ [y]) (hz : l₂ ++ [h] = z :: m₂)
    (hny : next' y = x) (hpx : prev' x = y) (hnx : next' x = z) (hpz : prev' z = x)
    (hnext : ∀ w, w ≠ x → w ≠ y → next' w = next w)
    (hprev : ∀ w, w ≠ x → w ≠ z → prev' w = prev w) :
    LinkRing next' prev' h (l₁ ++ x :: l₂) := by
  obtain ⟨m₁', y', z', m₂', hy', hz', hy₁, hz₂, hz₁, hy₂⟩ := exists_around hr.nodup
  obtain ⟨rfl, rfl⟩ : m₁' = m₁ ∧ y' = y := by
    rw [hy] at hy'
    simpa using hy'.symm
  obtain ⟨rfl, rfl⟩ : z' = z ∧ m₂' = m₂ := by
    rw [hz] at hz'
    simpa using hz'.symm
  simp only [List.mem_cons, List.mem_append, not_or] at hx
  obtain ⟨hxh, hx₁, hx₂⟩ := hx
  -- `x` is new
  have hnodup : (h :: (l₁ ++ x :: l₂)).Nodup := by
    have hperm : (h :: (l₁ ++ x :: l₂)).Perm (x :: h :: (l₁ ++ l₂)) :=
      (List.perm_middle.cons h).trans (List.Perm.swap ..)
    rw [hperm.nodup_iff, List.nodup_cons]
    exact ⟨by simp [hxh, hx₁, hx₂], hr.nodup⟩
  obtain ⟨h₁, h₂, -⟩ := (links_iff hy hz).mp hr.links
  -- the links before `y` and behind `z` stay
  refine ⟨hnodup, (links_node_iff hy hz).mpr ⟨h₁.congr ?_ ?_, h₂.congr ?_ ?_, ⟨hny, hpx⟩, hnx, hpz⟩⟩
  · intro w hw
    have hmem : w ∈ h :: l₁ := List.mem_of_mem_dropLast hw
    rw [hy, List.dropLast_concat] at hw
    apply hnext _ _ (ne_of_mem_of_not_mem hw hy₁)
    rintro rfl
    rcases List.mem_cons.mp hmem with hwh | hmem
    · exact hxh hwh
    · exact hx₁ hmem
  · intro w hw
    exact hprev _ (ne_of_mem_of_not_mem hw hx₁) (ne_of_mem_of_not_mem hw hz₁)
  · intro w hw
    rw [List.dropLast_concat] at hw
    exact hnext _ (ne_of_mem_of_not_mem hw hx₂) (ne_of_mem_of_not_mem hw hy₂)
  · intro w hw
    have hmem : w ∈ l₂ ++ [h] := List.mem_of_mem_tail hw
    rw [hz] at hw
    apply hprev _ _ (ne_of_mem_of_not_mem hw hz₂)
    rintro rfl
    rcases List.mem_append.mp hmem with hmem | hwh
    · exact hx₂ hmem
    · exact hxh (List.mem_singleton.mp hwh)

/-- Link a new node in behind the head. -/
theorem link_first (hr : LinkRing next prev h l) (hx : x ∉ h :: l) :
    LinkRing (update (update next x (next h)) h x)
      (update (update prev x h) (next h) x) h (x :: l) := by
  obtain ⟨z, m₂, hz⟩ : ∃ z m₂, l ++ [h] = z :: m₂ := by
    cases l <;> exact ⟨_, _, rfl⟩
  have hy : h :: [] = [] ++ [h] := rfl
  have hnz : next h = z := ((links_iff hy hz).mp hr.links).2.2.1
  have hxh : x ≠ h := by
    rintro rfl
    exact hx List.mem_cons_self
  have hxz : x ≠ z := by
    rintro rfl
    apply hx
    have : x ∈ l ++ [h] := by simp [hz]
    simpa [or_comm] using this
  rw [hnz]
  refine link hr hx hy hz (update_self ..) ?_ ?_ (update_self ..) ?_ ?_
  · rw [update_of_ne hxz, update_self]
  · rw [update_of_ne hxh, update_self]
  · intro w hwx hwh
    rw [update_of_ne hwh, update_of_ne hwx]
  · intro w hwx hwz
    rw [update_of_ne hwz, update_of_ne hwx]

/-- Link a new node in before the head, at the end of the ring. -/
theorem link_last (hr : LinkRing next prev h l) (hx : x ∉ h :: l) :
    LinkRing (update (update next (prev h) x) x h)
      (update (update prev x (prev h)) h x) h (l ++ [x]) := by
  obtain ⟨m₁, y, hy⟩ := (h :: l).eq_nil_or_concat'.resolve_left (by simp)
  have hr' : LinkRing next prev h (l ++ []) := by rwa [List.append_nil]
  have hz : [] ++ [h] = h :: [] := rfl
  have hpy : prev h = y := ((links_iff hy hz).mp hr'.links).2.2.2
  have hxh : x ≠ h := by
    rintro rfl
    exact hx List.mem_cons_self
  have hxy : x ≠ y := by
    rintro rfl
    apply hx
    simp [hy]
  rw [hpy]
  refine link hr' (by simpa using hx) hy hz ?_ ?_ (update_self ..) (update_self ..) ?_ ?_
  · rw [update_of_ne hxy.symm, update_self]
  · rw [update_of_ne hxh, update_self]
  · intro w hwx hwy
    rw [update_of_ne hwx, update_of_ne hwy]
  · intro w hwx hwh
    rw [update_of_ne hwh, update_of_ne hwx]

end LinkRing

/-! ## Walking around a ring -/

section Walk

variable [DecidableEq α]

/-- Walk on from `x` to the first node that satisfies `p`, but not beyond the head. `none` if more
than `n` nodes would have to be looked at. -/
def ringFind (next : α → α) (h : α) (p : α → Bool) : ℕ → α → Option (Option α)
  | 0, x => if x = h then some none else none
  | n + 1, x =>
    if x = h then some none else if p x then some (some x) else ringFind next h p n (next x)

/-- The search along the links finds what the search along the list finds. -/
theorem ringFind_links {h x : α} {l m : List α} {n : ℕ} {p : α → Bool} (hh : h ∉ l)
    (hl : l ++ [h] = x :: m) (hlinks : Links next prev (l ++ [h])) (hn : l.length ≤ n) :
    ringFind next h p n x = some (l.find? p) := by
  induction l generalizing x m n with
  | nil =>
    obtain ⟨rfl, -⟩ : h = x ∧ [] = m := by simpa using hl
    cases n <;> simp [ringFind]
  | cons y l ih =>
    obtain ⟨rfl, -⟩ : y = x ∧ l ++ [h] = m := by simpa using hl
    have hne : y ≠ h := fun heq => hh (heq ▸ List.mem_cons_self)
    obtain ⟨z, m', hz⟩ : ∃ z m', l ++ [h] = z :: m' := by
      cases l <;> exact ⟨_, _, rfl⟩
    cases n with
    | zero => simp at hn
    | succ n =>
      rw [ringFind, if_neg hne, List.find?_cons]
      rw [List.cons_append, hz, Links.cons_cons, ← hz] at hlinks
      by_cases hp : p y = true
      · simp [hp]
      · rw [if_neg hp, hlinks.1.1, Bool.eq_false_iff.mpr hp]
        exact ih (fun hmem => hh (List.mem_cons_of_mem _ hmem)) hz hlinks.2 (by simpa using hn)

/-- The search of a ring finds the first node that satisfies `p`. -/
theorem LinkRing.ringFind_eq {h : α} {l : List α} {n : ℕ} {p : α → Bool}
    (hr : LinkRing next prev h l) (hn : l.length ≤ n) :
    ringFind next h p n (next h) = some (l.find? p) := by
  obtain ⟨z, m, hz⟩ : ∃ z m, l ++ [h] = z :: m := by
    cases l <;> exact ⟨_, _, rfl⟩
  have hlinks := hr.links
  rw [List.cons_append, hz, Links.cons_cons, ← hz] at hlinks
  rw [hlinks.1.1]
  exact ringFind_links hr.head_notMem hz hlinks.2 hn

end Walk

/-! ## Queues -/

/-- The singly linked queue of the nodes `l`, from `first` on up to `null`; `last` is its last node
if there is one. -/
structure LinkQueue (next : α → α) (null first last : α) (l : List α) : Prop where
  nodup : (null :: l).Nodup
  links : (l ++ [null]).IsChain fun x y => next x = y
  first_eq : (l ++ [null]).head? = some first
  last_eq : ∀ x ∈ l.getLast?, x = last

namespace LinkQueue

variable {null first last x : α} {l : List α}

theorem null_notMem (hq : LinkQueue next null first last l) : null ∉ l :=
  (List.nodup_cons.mp hq.nodup).1

/-- The first pointer is null if the queue is empty. -/
theorem first_eq_null_iff (hq : LinkQueue next null first last l) : first = null ↔ l = [] := by
  have hfirst := hq.first_eq
  cases l with
  | nil => simpa using hfirst.symm
  | cons x l =>
    obtain rfl : x = first := by simpa using hfirst
    have hx : null ≠ x := fun heq => hq.null_notMem (heq ▸ List.mem_cons_self)
    simp [hx.symm]

theorem first_cons (hq : LinkQueue next null first last (x :: l)) : first = x := by
  simpa using hq.first_eq.symm

/-- The link fields determine the queue. -/
theorem unique (hq : LinkQueue next null first last l) {l' : List α} {last' : α}
    (hq' : LinkQueue next null first last' l') : l = l' :=
  hq.links.next_unique hq'.links hq.null_notMem hq'.null_notMem (hq.first_eq.trans hq'.first_eq.symm)

/-- The empty queue. -/
theorem nil : LinkQueue next null null last [] :=
  ⟨List.nodup_singleton null, List.isChain_singleton null, rfl, by simp⟩

/-- The same queue in another heap. -/
theorem map {γ : Type*} {f : α → γ} (hf : Injective f) {next' : γ → γ}
    (hnext : ∀ x, next' (f x) = f (next x)) (hq : LinkQueue next null first last l) :
    LinkQueue next' (f null) (f first) (f last) (l.map f) := by
  have hend : l.map f ++ [f null] = (l ++ [null]).map f := by simp
  refine ⟨?_, ?_, ?_, fun y hy => ?_⟩
  · rw [← List.map_cons]
    exact hq.nodup.map hf
  · rw [hend, List.isChain_map]
    refine hq.links.imp fun x y hxy => ?_
    rw [hnext, hxy]
  · rw [hend, List.head?_map, hq.first_eq]
    rfl
  · rw [List.getLast?_map] at hy
    obtain ⟨x, hx, rfl⟩ := Option.map_eq_some_iff.mp hy
    rw [hq.last_eq x hx]

/-- Only the links of the queue's own nodes are read. -/
theorem congr (hq : LinkQueue next null first last l) (hnext : ∀ y ∈ l, next' y = next y) :
    LinkQueue next' null first last l := by
  refine ⟨hq.nodup, ?_, hq.first_eq, hq.last_eq⟩
  obtain ⟨-, hlinks, -, -⟩ := hq
  induction l with
  | nil => exact List.isChain_singleton null
  | cons x l ih =>
    rw [List.cons_append] at hlinks ⊢
    rw [List.isChain_cons] at hlinks ⊢
    refine ⟨fun y hy => ?_, ih (fun y hy => hnext y (List.mem_cons_of_mem _ hy)) hlinks.2⟩
    rw [hnext x List.mem_cons_self]
    exact hlinks.1 y hy

/-- Take the first node off the queue. -/
theorem pop (hq : LinkQueue next null first last (x :: l)) :
    LinkQueue next null (next x) last l := by
  have hlinks := hq.links
  rw [List.cons_append, List.isChain_cons] at hlinks
  refine ⟨hq.nodup.sublist (by simp), hlinks.2, ?_, fun y hy => hq.last_eq y ?_⟩
  · obtain ⟨z, m, hz⟩ : ∃ z m, l ++ [null] = z :: m := by
      cases l <;> exact ⟨_, _, rfl⟩
    rw [hlinks.1 z (by simp [hz]), hz]
    rfl
  · rw [List.getLast?_cons]
    simp [Option.mem_def.mp hy]

variable [DecidableEq α]

/-- The first node of an empty queue. -/
theorem push_nil (hx : x ≠ null) : LinkQueue (update next x null) null x x [x] :=
  ⟨by simp [hx.symm], by simp, rfl, by simp⟩

/-- Put a node before the first one. -/
theorem push_first (hq : LinkQueue next null first last l) (hx : x ∉ null :: l) :
    LinkQueue (update next x first) null x ((x :: l).getLast (List.cons_ne_nil x l)) (x :: l) := by
  simp only [List.mem_cons, not_or] at hx
  have hold : LinkQueue (update next x first) null first last l :=
    hq.congr fun y hy => update_of_ne (ne_of_mem_of_not_mem hy hx.2) _ _
  refine ⟨?_, ?_, rfl, fun y hy => ?_⟩
  · have hnodup := hq.nodup
    simp only [List.nodup_cons, List.mem_cons, not_or] at hnodup ⊢
    exact ⟨⟨Ne.symm hx.1, hnodup.1⟩, hx.2, hnodup.2⟩
  · rw [List.cons_append, List.isChain_cons]
    refine ⟨fun y hy => ?_, hold.links⟩
    rw [update_self]
    exact Option.some.inj (hq.first_eq.symm.trans hy)
  · rw [List.getLast?_eq_some_getLast (List.cons_ne_nil x l)] at hy
    exact (Option.some.inj hy).symm

/-- Put a node behind the last one. -/
theorem push (hq : LinkQueue next null first last l) (hl : l ≠ []) (hx : x ∉ null :: l) :
    LinkQueue (update (update next x null) last x) null first x (l ++ [x]) := by
  obtain ⟨m, y, hy⟩ := l.eq_nil_or_concat'.resolve_left hl
  obtain rfl : y = last := hq.last_eq y (by simp [hy])
  simp only [List.mem_cons, not_or] at hx
  -- the new node is neither the last one nor among the others
  have hxy : x ≠ y := by
    rintro rfl
    apply hx.2
    simp [hy]
  have hm : y ∉ m := by
    have hnodup := (List.nodup_cons.mp hq.nodup).2
    rw [hy] at hnodup
    intro hmem
    exact List.disjoint_of_nodup_append hnodup hmem (by simp)
  -- the links as they were
  have hlinks := hq.links
  rw [hy, List.isChain_append] at hlinks
  refine ⟨?_, ?_, ?_, by simp⟩
  -- no node twice
  · have hnodup := hq.nodup
    rw [List.nodup_cons] at hnodup ⊢
    refine ⟨?_, hnodup.2.append (List.nodup_singleton x) ?_⟩
    · simpa [hnodup.1] using Ne.symm hx.1
    · simpa using hx.2
  · -- the links up to `y` are as before
    have hbefore : (m ++ [y]).IsChain fun u v => update (update next x null) y x u = v := by
      have hold := hlinks.1
      rw [List.isChain_append] at hold ⊢
      refine ⟨hold.1.imp_of_mem_imp ?_, List.isChain_singleton y, fun u hu v hv => ?_⟩
      · intro u v hu _ huv
        rw [update_of_ne (ne_of_mem_of_not_mem hu hm), update_of_ne, huv]
        rintro rfl
        exact hx.2 (by simp [hy, hu])
      · have hu' : u ∈ m := List.mem_of_mem_getLast? hu
        rw [update_of_ne (ne_of_mem_of_not_mem hu' hm), update_of_ne]
        · exact hold.2.2 u hu v hv
        · rintro rfl
          exact hx.2 (by simp [hy, hu'])
    rw [hy, List.append_assoc, List.isChain_append]
    refine ⟨hbefore, ?_, ?_⟩
    · simp [hxy]
    · simp
  -- the first node is the old one
  · have hfirst := hq.first_eq
    rw [hy] at hfirst ⊢
    cases m <;> simpa using hfirst

end LinkQueue
