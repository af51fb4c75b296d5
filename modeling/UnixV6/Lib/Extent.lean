import Mathlib

/-!
# Coalesced lists of extents

An *extent* is a half-open range of natural numbers. A list of extents is *coalesced* when its
members are non-empty, in increasing order and never adjacent, so that every member is a maximal
run of the set the list covers. This file develops the two operations of a first-fit allocator on
such lists:

* `firstFit l s` takes `s` units from the first extent that has them;
* `release l x` gives the extent `x` back, joining it to the neighbours it touches.

The main results are `firstFit_isLeast` (the lowest run of `s` units is taken), `covered_firstFit`
and `covered_release` (what the operations do to the covered set), `Coalesced.unique` (the set
determines the list) and `Coalesced.length_le` (a list with `k` ranges cut out of one interval has
at most `k + 1` members).
-/

/-- The half-open range `[base, base + len)`. -/
@[ext]
structure Extent where
  /-- The lowest unit. -/
  base : ℕ
  /-- The number of units. -/
  len : ℕ
  deriving DecidableEq, Repr

namespace Extent

/-- One past the highest unit. -/
def stop (e : Extent) : ℕ := e.base + e.len

/-- The units of an extent. -/
def units (e : Extent) : Set ℕ := Set.Ico e.base e.stop

@[simp]
theorem mem_units {e : Extent} {x : ℕ} : x ∈ e.units ↔ e.base ≤ x ∧ x < e.stop := Iff.rfl

/-- Disjointness of two non-empty extents is a matter of order. -/
theorem disjoint_units_iff {e f : Extent} (he : 0 < e.len) (hf : 0 < f.len) :
    Disjoint e.units f.units ↔ e.stop ≤ f.base ∨ f.stop ≤ e.base := by
  rw [Set.disjoint_left]
  constructor
  · intro h
    by_contra hc
    rw [not_or] at hc
    have h1 := @h e.base
    have h2 := @h f.base
    simp only [mem_units, stop] at h1 h2 hc
    omega
  · rintro h x hx hx'
    simp only [mem_units] at hx hx'
    omega

/-- The set of units a list of extents covers. -/
def covered (l : List Extent) : Set ℕ := {x | ∃ e ∈ l, x ∈ e.units}

@[simp]
theorem covered_nil : covered [] = ∅ := by
  ext x
  simp [covered]

/-- What extents cover. -/
@[simp]
theorem covered_cons (e : Extent) (l : List Extent) : covered (e :: l) = e.units ∪ covered l := by
  ext x
  simp [covered]

/-- A unit is covered if it lies in an extent. -/
theorem mem_covered {l : List Extent} {x : ℕ} :
    x ∈ covered l ↔ ∃ e ∈ l, e.base ≤ x ∧ x < e.stop := Iff.rfl

/-- An extent covers its units. -/
theorem units_subset_covered {l : List Extent} {e : Extent} (he : e ∈ l) : e.units ⊆ covered l :=
  fun _ hx => ⟨e, he, hx⟩

/-- Every member is non-empty, and each member stops short of the next. -/
structure Coalesced (l : List Extent) : Prop where
  /-- No member is empty. -/
  pos : ∀ e ∈ l, 0 < e.len
  /-- Between two members there is a unit of neither. -/
  sep : l.Pairwise fun e f => e.stop < f.base

theorem Coalesced.nil : Coalesced [] := ⟨by simp, List.Pairwise.nil⟩

/-- Extents are coalesced if there are gaps between them. -/
theorem coalesced_cons {e : Extent} {l : List Extent} :
    Coalesced (e :: l) ↔ 0 < e.len ∧ (∀ f ∈ l, e.stop < f.base) ∧ Coalesced l := by
  constructor
  · rintro ⟨hpos, hsep⟩
    rw [List.pairwise_cons] at hsep
    exact ⟨hpos e (by simp), hsep.1, fun f hf => hpos f (by simp [hf]), hsep.2⟩
  · rintro ⟨he, hlt, hpos, hsep⟩
    refine ⟨?_, List.pairwise_cons.mpr ⟨hlt, hsep⟩⟩
    intro f hf
    rcases List.mem_cons.mp hf with rfl | hf
    · exact he
    · exact hpos f hf

/-- The extents behind the first are coalesced. -/
theorem Coalesced.tail {e : Extent} {l : List Extent} (h : Coalesced (e :: l)) : Coalesced l :=
  (coalesced_cons.mp h).2.2

theorem Coalesced.nodup {l : List Extent} (h : Coalesced l) : l.Nodup := by
  refine h.sep.imp fun {e f} hlt heq => ?_
  subst heq
  simp only [stop] at hlt
  omega

/-- Two members of a coalesced list are equal or a gap apart. -/
theorem Coalesced.eq_or_lt {l : List Extent} (h : Coalesced l) {e f : Extent} (he : e ∈ l)
    (hf : f ∈ l) : e = f ∨ e.stop < f.base ∨ f.stop < e.base := by
  induction l with
  | nil => cases he
  | cons g l ih =>
    obtain ⟨-, hlt, hl⟩ := coalesced_cons.mp h
    rcases List.mem_cons.mp he with rfl | he'
    · rcases List.mem_cons.mp hf with rfl | hf'
      · exact Or.inl rfl
      · exact Or.inr (Or.inl (hlt f hf'))
    · rcases List.mem_cons.mp hf with rfl | hf'
      · exact Or.inr (Or.inr (hlt e he'))
      · exact ih hl he' hf'

/-- The unit just past a member is not covered. -/
theorem Coalesced.stop_notMem {l : List Extent} (h : Coalesced l) {e : Extent} (he : e ∈ l) :
    e.stop ∉ covered l := by
  rintro ⟨f, hf, hle, hlt⟩
  rcases h.eq_or_lt he hf with rfl | h1 | h1
  · omega
  · omega
  · have := h.pos e he
    simp only [stop] at *
    omega

/-- A run of covered units lies inside one member. -/
theorem Coalesced.exists_of_subset {l : List Extent} (h : Coalesced l) {b s : ℕ} (hs : 0 < s)
    (hsub : Set.Ico b (b + s) ⊆ covered l) : ∃ e ∈ l, e.base ≤ b ∧ b + s ≤ e.stop := by
  obtain ⟨e, he, hle, hlt⟩ := hsub (show b ∈ Set.Ico b (b + s) from ⟨le_rfl, by omega⟩)
  refine ⟨e, he, hle, ?_⟩
  by_contra hc
  exact h.stop_notMem he (hsub ⟨by omega, by omega⟩)

/-- A non-empty member covers its own base. -/
theorem Coalesced.base_mem {l : List Extent} (h : Coalesced l) {e : Extent} (he : e ∈ l) :
    e.base ∈ covered l := by
  have hpos := h.pos e he
  exact ⟨e, he, le_rfl, by simp only [stop]; omega⟩

/-- The head of a coalesced list has no unit in common with the tail. -/
theorem Coalesced.disjoint_tail {e : Extent} {l : List Extent} (h : Coalesced (e :: l)) :
    Disjoint e.units (covered l) := by
  rw [Set.disjoint_left]
  rintro x hx ⟨f, hf, hfx⟩
  have := (coalesced_cons.mp h).2.1 f hf
  simp only [mem_units] at hx hfx
  omega

/-- If two coalesced lists cover the same units, the head of one lies inside the head of the
other: it may not lie past it, as then the first unit of the other would be uncovered. -/
private theorem Coalesced.head_subset {e e' : Extent} {l l' : List Extent}
    (h : Coalesced (e :: l)) (h' : Coalesced (e' :: l'))
    (heq : covered (e :: l) = covered (e' :: l')) : e'.base ≤ e.base ∧ e.stop ≤ e'.stop := by
  have hsub : Set.Ico e.base (e.base + e.len) ⊆ covered (e' :: l') := by
    rw [← heq]
    exact units_subset_covered (by simp)
  obtain ⟨g, hg, hgb, hgs⟩ := h'.exists_of_subset (h.pos e (by simp)) hsub
  rcases List.mem_cons.mp hg with rfl | hg
  · exact ⟨hgb, hgs⟩
  · exfalso
    have hmem := h'.base_mem (show e' ∈ e' :: l' by simp)
    rw [← heq] at hmem
    obtain ⟨f, hf, hfb, -⟩ := hmem
    have hlt := (coalesced_cons.mp h').2.1 g hg
    have hef : e.base ≤ f.base := by
      rcases List.mem_cons.mp hf with rfl | hf
      · exact le_rfl
      · have := (coalesced_cons.mp h).2.1 f hf
        simp only [stop] at this
        omega
    simp only [stop] at hlt
    omega

/-- The covered set determines a coalesced list. -/
theorem Coalesced.unique {l l' : List Extent} (h : Coalesced l) (h' : Coalesced l')
    (heq : covered l = covered l') : l = l' := by
  induction l generalizing l' with
  | nil =>
    cases l' with
    | nil => rfl
    | cons e' l' =>
      have hmem := h'.base_mem (show e' ∈ e' :: l' by simp)
      rw [← heq, covered_nil] at hmem
      exact hmem.elim
  | cons e l ih =>
    cases l' with
    | nil =>
      have hmem := h.base_mem (show e ∈ e :: l by simp)
      rw [heq, covered_nil] at hmem
      exact hmem.elim
    | cons e' l' =>
      -- the first extents are the first gapless stretch of the same set
      have h1 := h.head_subset h' heq
      have h2 := h'.head_subset h heq.symm
      have hee : e = e' := by
        ext
        · omega
        · simp only [stop] at h1 h2
          omega
      subst hee
      -- the rests cover the same, too
      have hrest : covered l = covered l' := by
        rw [covered_cons, covered_cons] at heq
        rw [← h.disjoint_tail.sup_sdiff_cancel_left, ← h'.disjoint_tail.sup_sdiff_cancel_left]
        exact congrArg (· \ e.units) heq
      rw [ih h.tail h'.tail hrest]

/-- A coalesced list that covers an interval less some ranges has at most one member more than
there are ranges. -/
theorem Coalesced.length_le {l live : List Extent} (h : Coalesced l) {b n : ℕ}
    (hcov : covered l = Set.Ico b (b + n) \ covered live) : l.length ≤ live.length + 1 := by
  classical
  rcases List.eq_nil_or_concat l with rfl | ⟨init, last, rfl⟩
  · simp
  rw [List.concat_eq_append] at h hcov ⊢
  -- each member but the last stops at a unit of the interval that some range has taken
  have hstop : ∀ e ∈ init, ∃ g ∈ live, e.stop ∈ g.units := by
    intro e he
    have hlt : e.stop < last.base := (List.pairwise_append.mp h.sep).2.2 e he last (by simp)
    have hlast := h.base_mem (show last ∈ init ++ [last] by simp)
    have hbase := h.base_mem (show e ∈ init ++ [last] by simp [he])
    have hnot := h.stop_notMem (show e ∈ init ++ [last] by simp [he])
    rw [hcov] at hlast hbase hnot
    simp only [Set.mem_sdiff, Set.mem_Ico, not_and, not_not] at hlast hbase hnot
    refine hnot ⟨?_, by omega⟩
    simp only [stop]
    omega
  choose! g hg hmem using hstop
  have hinj : Set.InjOn g (init.toFinset : Set Extent) := by
    intro e he f hf hgef
    have he' : e ∈ init := by simpa using he
    have hf' : f ∈ init := by simpa using hf
    -- a range holding both stops would hold the units of the later member
    have hno : ∀ {e f : Extent}, e ∈ init → f ∈ init → g e = g f → ¬ e.stop < f.base := by
      intro e f he hf hgef hlt
      have hcovf := h.base_mem (show f ∈ init ++ [last] by simp [hf])
      rw [hcov] at hcovf
      refine hcovf.2 ⟨g e, hg e he, ?_⟩
      have h1 := hmem e he
      have h2 := hmem f hf
      rw [← hgef] at h2
      simp only [mem_units, stop] at h1 h2 hlt ⊢
      omega
    rcases h.eq_or_lt (show e ∈ init ++ [last] by simp [he'])
      (show f ∈ init ++ [last] by simp [hf']) with heq | hlt | hlt
    · exact heq
    · exact absurd hlt (hno he' hf' hgef)
    · exact absurd hlt (hno hf' he' hgef.symm)
  have hnodup : init.Nodup := (List.nodup_append.mp h.nodup).1
  have hcard : init.toFinset.card ≤ live.toFinset.card :=
    Finset.card_le_card_of_injOn g (fun e he => by simpa using hg e (by simpa using he)) hinj
  rw [List.toFinset_card_of_nodup hnodup] at hcard
  have := List.toFinset_card_le live
  simp only [List.length_append, List.length_singleton]
  omega

/-! ## Taking the first fit -/

/-- Take `s` units from the low end of the first extent that has as many. -/
def firstFit : List Extent → ℕ → Option (ℕ × List Extent)
  | [], _ => none
  | e :: l, s =>
    if s ≤ e.len then
      some (e.base, if e.len = s then l else ⟨e.base + s, e.len - s⟩ :: l)
    else
      (firstFit l s).map fun p => (p.1, e :: p.2)

/-- Nothing is found if no extent is long enough. -/
theorem firstFit_eq_none_iff {l : List Extent} {s : ℕ} :
    firstFit l s = none ↔ ∀ e ∈ l, e.len < s := by
  induction l with
  | nil => simp [firstFit]
  | cons e l ih =>
    rw [firstFit]
    split
    · simp; omega
    · simp [ih]; omega

/-- The members before the extent taken are too short, and that extent loses its first units. -/
theorem firstFit_cases {l l' : List Extent} {s a : ℕ} (h : firstFit l s = some (a, l')) :
    ∃ pre e post, l = pre ++ e :: post ∧ (∀ f ∈ pre, f.len < s) ∧ s ≤ e.len ∧ a = e.base ∧
      l' = pre ++ (if e.len = s then post else ⟨e.base + s, e.len - s⟩ :: post) := by
  induction l generalizing l' with
  | nil => simp [firstFit] at h
  | cons e l ih =>
    rw [firstFit] at h
    split at h
    next hle =>
      simp only [Option.some.injEq, Prod.mk.injEq] at h
      exact ⟨[], e, l, rfl, by simp, hle, h.1.symm, h.2.symm⟩
    next hlt =>
      rw [Option.map_eq_some_iff] at h
      obtain ⟨⟨a', l''⟩, hff, heq⟩ := h
      simp only [Prod.mk.injEq] at heq
      obtain ⟨rfl, rfl⟩ := heq
      obtain ⟨pre, g, post, rfl, hpre, hle, rfl, rfl⟩ := ih hff
      refine ⟨e :: pre, g, post, rfl, ?_, hle, rfl, rfl⟩
      simp only [List.mem_cons, forall_eq_or_imp]
      exact ⟨by omega, hpre⟩

/-- What is left after an allocation is coalesced. -/
theorem Coalesced.firstFit {l l' : List Extent} {s a : ℕ} (hl : Coalesced l) (hs : 0 < s)
    (h : firstFit l s = some (a, l')) : Coalesced l' := by
  -- what `firstFit` took: one extent, as a whole or at its front
  obtain ⟨pre, e, post, rfl, -, hle, -, rfl⟩ := firstFit_cases h
  obtain ⟨hpos, hsep⟩ := hl
  rw [List.pairwise_append, List.pairwise_cons] at hsep
  obtain ⟨hpre, ⟨hpost, hpp⟩, hcross⟩ := hsep
  split
  · -- the extent is used up
    refine ⟨fun f hf => hpos f ?_, List.pairwise_append.mpr ⟨hpre, hpp, ?_⟩⟩
    · simp only [List.mem_append, List.mem_cons] at hf ⊢
      tauto
    · exact fun f hf g hg => hcross f hf g (by simp [hg])
  · -- the extent is shortened at its front
    refine ⟨?_, List.pairwise_append.mpr ⟨hpre, List.pairwise_cons.mpr ⟨?_, hpp⟩, ?_⟩⟩
    -- the lengths: the shortened extent is not empty
    · intro f hf
      simp only [List.mem_append, List.mem_cons] at hf
      rcases hf with hf | rfl | hf
      · exact hpos f (by simp [hf])
      · change 0 < e.len - s
        omega
      · exact hpos f (by simp [hf])
    -- to the right nothing has come nearer
    · intro f hf
      have := hpost f hf
      simp only [stop] at this ⊢
      omega
    -- to the left the front has moved away
    · intro f hf g hg
      rcases List.mem_cons.mp hg with rfl | hg
      · have := hcross f hf e (by simp)
        simp only at this ⊢
        omega
      · exact hcross f hf g (by simp [hg])

/-- Allocation removes exactly the units handed out. -/
theorem covered_firstFit {l l' : List Extent} {s a : ℕ} (hl : Coalesced l)
    (h : firstFit l s = some (a, l')) :
    Set.Ico a (a + s) ⊆ covered l ∧ covered l' = covered l \ Set.Ico a (a + s) := by
  obtain ⟨pre, e, post, rfl, -, hle, rfl, rfl⟩ := firstFit_cases h
  refine ⟨fun x hx => ⟨e, by simp, ?_⟩, ?_⟩
  · simp only [Set.mem_Ico] at hx
    simp only [mem_units, stop]
    omega
  have hsep := hl.sep
  rw [List.pairwise_append, List.pairwise_cons] at hsep
  obtain ⟨-, ⟨hpost, -⟩, hcross⟩ := hsep
  ext x
  simp only [mem_covered, Set.mem_sdiff, Set.mem_Ico, List.mem_append, List.mem_cons]
  constructor
  · rintro ⟨f, hf, hfx⟩
    -- the other extents keep apart from what is handed out
    have hother : f ∈ pre ∨ f ∈ post → _ := fun hf' : f ∈ pre ∨ f ∈ post => by
      refine (⟨⟨f, by tauto, hfx⟩, ?_⟩ :
        (∃ f, (f ∈ pre ∨ f = e ∨ f ∈ post) ∧ f.base ≤ x ∧ x < f.stop) ∧
          ¬ (e.base ≤ x ∧ x < e.base + s))
      rcases hf' with hf' | hf'
      · have := hcross f hf' e (by simp)
        omega
      · have := hpost f hf'
        simp only [stop] at this hfx
        omega
    rcases hf with hf | hf
    · exact hother (Or.inl hf)
    · split at hf
      · exact hother (Or.inr hf)
      · rcases List.mem_cons.mp hf with rfl | hf
        · simp only [stop] at hfx
          exact ⟨⟨e, Or.inr (Or.inl rfl), by simp only [stop]; omega⟩, by omega⟩
        · exact hother (Or.inr hf)
  · rintro ⟨⟨f, hf, hfx⟩, hnot⟩
    rcases hf with hf | rfl | hf
    · exact ⟨f, Or.inl hf, hfx⟩
    · simp only [stop] at hfx
      have hne : ¬ f.len = s := by omega
      refine ⟨⟨f.base + s, f.len - s⟩, Or.inr ?_, ?_⟩
      · simp [hne]
      · simp only [stop]
        omega
    · refine ⟨f, Or.inr ?_, hfx⟩
      split
      · exact hf
      · exact List.mem_cons_of_mem _ hf

/-- First fit returns the lowest address at which `s` units are free. -/
theorem firstFit_isLeast {l l' : List Extent} {s a : ℕ} (hl : Coalesced l) (hs : 0 < s)
    (h : firstFit l s = some (a, l')) : IsLeast {b | Set.Ico b (b + s) ⊆ covered l} a := by
  refine ⟨(covered_firstFit hl h).1, fun b hb => ?_⟩
  obtain ⟨pre, e, post, rfl, hpre, hle, rfl, rfl⟩ := firstFit_cases h
  obtain ⟨f, hf, hfb, hfs⟩ := hl.exists_of_subset hs hb
  have hsep := hl.sep
  rw [List.pairwise_append, List.pairwise_cons] at hsep
  simp only [List.mem_append, List.mem_cons] at hf
  rcases hf with hf | rfl | hf
  · have := hpre f hf
    simp only [stop] at hfs
    omega
  · exact hfb
  · have := hsep.2.1.1 f hf
    simp only [stop] at this
    omega

/-- First fit fails exactly when no run of `s` units is free. -/
theorem firstFit_eq_none_iff_forall {l : List Extent} {s : ℕ} (hl : Coalesced l) (hs : 0 < s) :
    firstFit l s = none ↔ ∀ b, ¬ Set.Ico b (b + s) ⊆ covered l := by
  rw [firstFit_eq_none_iff]
  constructor
  · intro h b hb
    obtain ⟨e, he, hle, hlt⟩ := hl.exists_of_subset hs hb
    have := h e he
    simp only [stop] at hlt
    omega
  · intro h e he
    by_contra hc
    refine h e.base fun x hx => ⟨e, he, ?_⟩
    simp only [Set.mem_Ico] at hx
    simp only [mem_units, stop]
    omega

/-! ## Giving an extent back -/

/-- Join the extent `e` to the head of `l` if they touch. -/
def joinHead (e : Extent) : List Extent → List Extent
  | [] => [e]
  | f :: l => if e.stop = f.base then ⟨e.base, e.len + f.len⟩ :: l else e :: f :: l

/-- Insert the extent `x` in order, joining it to the neighbours it touches. -/
def release : List Extent → Extent → List Extent
  | [], x => [x]
  | e :: l, x =>
    if e.base ≤ x.base then
      if e.stop = x.base then joinHead ⟨e.base, e.len + x.len⟩ l else e :: release l x
    else
      joinHead x (e :: l)

/-- An extent that is joined to the first covers what it covered. -/
theorem covered_joinHead (e : Extent) (l : List Extent) :
    covered (joinHead e l) = e.units ∪ covered l := by
  cases l with
  | nil => simp [joinHead]
  | cons f l =>
    rw [joinHead]
    split
    next h =>
      ext x
      simp only [covered_cons, Set.mem_union, mem_units, stop] at h ⊢
      by_cases hx : x ∈ covered l
      · simp [hx]
      · simp only [hx, or_false]
        omega
    next => rw [covered_cons]

/-- An extent in front of the others is joined to them. -/
theorem Coalesced.joinHead {e : Extent} {l : List Extent} (he : 0 < e.len) (hl : Coalesced l)
    (hlt : ∀ f ∈ l, e.stop ≤ f.base) : Coalesced (joinHead e l) := by
  cases l with
  | nil => exact coalesced_cons.mpr ⟨he, by simp, Coalesced.nil⟩
  | cons f l =>
    obtain ⟨hf, hfl, hl'⟩ := coalesced_cons.mp hl
    have hef := hlt f (by simp)
    rw [Extent.joinHead]
    split
    next h =>
      refine coalesced_cons.mpr ⟨by simp only; omega, fun g hg => ?_, hl'⟩
      have := hfl g hg
      simp only [stop] at this h ⊢
      omega
    next h =>
      refine coalesced_cons.mpr ⟨he, fun g hg => ?_, hl⟩
      rcases List.mem_cons.mp hg with rfl | hg
      · omega
      · have := hfl g hg
        simp only [stop] at this hef ⊢
        omega

/-- A release covers what was released. -/
theorem covered_release (l : List Extent) (x : Extent) :
    covered (release l x) = covered l ∪ x.units := by
  induction l with
  | nil => simp [release]
  | cons e l ih =>
    rw [release]
    split
    · split
      next h =>
        rw [covered_joinHead, covered_cons]
        ext y
        simp only [Set.mem_union, mem_units, stop] at h ⊢
        by_cases hy : y ∈ covered l
        · simp [hy]
        · simp only [hy, or_false]
          omega
      next =>
        rw [covered_cons, covered_cons, ih, Set.union_assoc]
    · rw [covered_joinHead, Set.union_comm]

/-- A release in front of the others stays behind what is before it. -/
theorem lt_of_mem_joinHead {l : List Extent} {x : Extent} {b : ℕ} (hl : ∀ f ∈ l, b < f.base)
    (hx : b < x.base) : ∀ f ∈ joinHead x l, b < f.base := by
  intro f hf
  cases l with
  | nil =>
    rw [joinHead, List.mem_singleton] at hf
    exact hf ▸ hx
  | cons g l =>
    rw [joinHead] at hf
    split at hf <;> rcases List.mem_cons.mp hf with rfl | hf
    · exact hx
    · exact hl f (by simp [hf])
    · exact hx
    · exact hl f hf

/-- The extents of `release l x` start no lower than those of `l` and `x`. -/
theorem lt_of_mem_release {l : List Extent} {x : Extent} {b : ℕ} (hl : ∀ f ∈ l, b < f.base)
    (hx : b < x.base) : ∀ f ∈ release l x, b < f.base := by
  induction l with
  | nil => simpa [release] using hx
  | cons e l ih =>
    rw [List.forall_mem_cons] at hl
    rw [release]
    split
    · split
      · exact lt_of_mem_joinHead hl.2 hl.1
      · exact List.forall_mem_cons.mpr ⟨hl.1, ih hl.2⟩
    · exact lt_of_mem_joinHead (List.forall_mem_cons.mpr hl) hx

/-- Giving back an extent that is nowhere covered keeps the list coalesced. -/
theorem Coalesced.release {l : List Extent} {x : Extent} (hl : Coalesced l) (hx : 0 < x.len)
    (hdisj : Disjoint (covered l) x.units) : Coalesced (release l x) := by
  induction l with
  | nil => exact coalesced_cons.mpr ⟨hx, by simp, Coalesced.nil⟩
  | cons e l ih =>
    obtain ⟨he, hlt, hl'⟩ := coalesced_cons.mp hl
    rw [covered_cons, Set.disjoint_union_left] at hdisj
    have horder := (disjoint_units_iff he hx).mp hdisj.1
    -- an extent of the tail starts above `x` whenever it starts above `x.base`
    have habove : ∀ f ∈ l, x.base ≤ f.base → x.stop ≤ f.base := by
      intro f hf hle
      have hdf : Disjoint f.units x.units := hdisj.2.mono_left (units_subset_covered hf)
      have hfpos := hl'.pos f hf
      rcases (disjoint_units_iff hfpos hx).mp hdf with h | h
      · simp only [stop] at h
        omega
      · exact h
    rw [Extent.release]
    split
    next hle =>
      have hex : e.stop ≤ x.base := by
        rcases horder with h | h
        · exact h
        · simp only [stop] at h ⊢
          omega
      split
      next heq =>
        refine Coalesced.joinHead (by simp only; omega) hl' fun f hf => ?_
        have h1 := hlt f hf
        have h2 := habove f hf (by omega)
        simp only [stop] at heq h2 ⊢
        omega
      next hne =>
        refine coalesced_cons.mpr ⟨he, fun f hf => ?_, ih hl' hdisj.2⟩
        exact lt_of_mem_release (b := e.stop) hlt (by omega) f hf
    next hgt =>
      refine Coalesced.joinHead hx hl fun f hf => ?_
      rcases List.mem_cons.mp hf with rfl | hf
      · rcases horder with h | h
        · simp only [stop] at h
          omega
        · exact h
      · have := hlt f hf
        simp only [stop] at this
        exact habove f hf (by omega)

end Extent
