import UnixV6.Ken.AllocSleep

/-!
# Interleaved calls of `alloc` and `free` are atomic

`Related` ties a state in which any number of processes are somewhere in `alloc` or `free` to a list
of free blocks on which every call has its effect at one moment. The lock is what keeps the two
together: while it is set, one process alone has the list, and the list is in one of two places.
-/

open Function

namespace UnixV6

namespace Flock

variable {P : Type*}

/-- Who has a block: the callers together, or a process inside a call. -/
def own (s : Flock P) : Option P → Set ℤ
  | none => {b | b ∈ s.used}
  | some p => {b | (s.pc p).carries = some b}

/-- The list of free blocks as the callers see it. -/
abbrev Pool (P : Type*) := AtomicObject P FlockOp (Option Alloc) (List ℤ)

/-- `s` stands for the atomic list `x`. All blocks of the volume that are free or have been handed
out are `total`. -/
structure Related (total : Set ℤ) (s : Flock P) (x : Pool P) : Prop where
  phase : ∀ p, x.phase p = (s.pc p).phase
  own : Ownership s.own {b | b ∈ x.val} total
  nodup : x.val.Nodup
  inRange : ∀ b ∈ total, s.fp.InRange b
  ninode : s.fp.s_ninode ≤ 100
  /-- The lock has a holder. -/
  holder : s.fp.s_flock = true → ∃ p, (s.pc p).locks = true
  locked : ∀ p, (s.pc p).locks = true → s.fp.s_flock = true
  one : ∀ p q, (s.pc p).locks = true → (s.pc q).locks = true → p = q
  /-- No wakeup has been lost. -/
  asleep : ∀ p, (s.pc p).asleep = true → s.fp.s_flock = true
  list : s.fp.s_flock = false → FreeStack s.blk s.fp.s_nfree s.fp.s_free x.val
  keeps : ∀ p, (s.pc p).Keeps s.fp s.blk x.val

variable {total : Set ℤ} {s s' : Flock P} {x x' : Pool P} {p q : P} {b : ℤ}

namespace Related

/-- Where the lock is free, or `p` has it, nobody else is inside. -/
theorem alone (h : Related total s x) (hp : s.fp.s_flock = false ∨ (s.pc p).locks = true)
    (hq : q ≠ p) : (s.pc q).locks = false := by
  by_contra hlocks
  rw [Bool.not_eq_false] at hlocks
  rcases hp with hfree | hp
  · rw [h.locked q hlocks] at hfree
    cases hfree
  · exact hq (h.one q p hlocks hp)

/-- The check of the counts finds nothing. -/
theorem checkCounts (h : Related total s x) : s.fp.checkCounts = s.fp := by
  have hcount : s.fp.s_nfree ≤ 100 := by
    cases hlock : s.fp.s_flock with
    | false => exact (h.list hlock).count.2
    | true =>
      obtain ⟨p, hp⟩ := h.holder hlock
      have hkeeps := h.keeps p
      cases hpc : s.pc p <;> rw [hpc] at hp hkeeps
      case alloc_bread => exact hkeeps.1.trans_le (by omega)
      case free_getblk => exact hkeeps.2.count.2
      case free_bwrite => exact hkeeps.1.trans_le (by omega)
      all_goals cases hp
  have := h.ninode
  rw [Filsys.checkCounts, if_neg (by omega)]

/-- A block that a process carries is neither free nor with a caller. -/
theorem carries (h : Related total s x) (hp : (s.pc p).carries = some b) :
    b ∈ total ∧ b ∉ x.val ∧ b ∉ s.used := by
  have hb : b ∈ s.own (some p) := hp
  refine ⟨h.own.own_subset _ hb, h.own.not_free_of_mem hb, fun hused => ?_⟩
  cases h.own.eq_of_mem hb (show b ∈ s.own none from hused)

/-- Two processes do not carry the same block. -/
theorem carries_eq (h : Related total s x) (hp : (s.pc p).carries = some b)
    (hq : (s.pc q).carries = some b) : p = q :=
  Option.some.inj (h.own.eq_of_mem (i := some p) (j := some q) hp hq)

end Related

/-- What every step of the process `p` leaves as it is, or takes care of. -/
structure Moves (total : Set ℤ) (p : P) (s s' : Flock P) (x x' : Pool P) : Prop where
  others : ∀ q, q ≠ p → (s'.pc q).woken = (s.pc q).woken
  phase : x'.phase p = (s'.pc p).phase
  phases : ∀ q, q ≠ p → x'.phase q = x.phase q
  own : Ownership s'.own {b | b ∈ x'.val} total
  nodup : x'.val.Nodup
  size : s'.fp.SameSize s.fp
  ninode : s'.fp.s_ninode = s.fp.s_ninode
  asleep : ∀ q, (s'.pc q).asleep = true → s'.fp.s_flock = true

namespace Moves

/-- The phases of all calls, when one of them has moved. -/
theorem phase_all (hm : Moves total p s s' x x') (h : Related total s x) (q : P) :
    x'.phase q = (s'.pc q).phase := by
  by_cases hqp : q = p
  · rw [hqp, hm.phase]
  · rw [hm.phases q hqp, h.phase, ← FlockPc.phase_woken, ← hm.others q hqp, FlockPc.phase_woken]

/-- The others hold the lock as before. -/
theorem locks (hm : Moves total p s s' x x') (hq : q ≠ p) : (s'.pc q).locks = (s.pc q).locks := by
  rw [← FlockPc.locks_woken, hm.others q hq, FlockPc.locks_woken]

/-- A step of a process that has the list to itself. -/
theorem inside (hm : Moves total p s s' x x') (h : Related total s x)
    (hp : s.fp.s_flock = false ∨ (s.pc p).locks = true)
    (hflock : s'.fp.s_flock = (s'.pc p).locks)
    (hlist : s'.fp.s_flock = false → FreeStack s'.blk s'.fp.s_nfree s'.fp.s_free x'.val)
    (hkeeps : (s'.pc p).Keeps s'.fp s'.blk x'.val) : Related total s' x' := by
  have halone : ∀ q, (s'.pc q).locks = true → q = p := by
    intro q hq
    by_contra hqp
    rw [hm.locks hqp, h.alone hp hqp] at hq
    cases hq
  refine ⟨hm.phase_all h, hm.own, hm.nodup, fun b hb => hm.size.inRange (h.inRange b hb),
    hm.ninode ▸ h.ninode, fun hlock => ⟨p, hflock ▸ hlock⟩, fun q hq => ?_, fun q r hq hr => ?_,
    hm.asleep, hlist, fun q => ?_⟩
  · rw [hflock, ← halone q hq]
    exact hq
  · rw [halone q hq, halone r hr]
  · by_cases hqp : q = p
    · exact hqp ▸ hkeeps
    · apply FlockPc.keeps_of_not_locks
      rw [hm.locks hqp]
      exact h.alone hp hqp

/-- A step that keeps away from the list. -/
theorem outside (hm : Moves total p s s' x x') (h : Related total s x)
    (hp : (s.pc p).locks = false) (hp' : (s'.pc p).locks = false)
    (hval : x'.val = x.val) (hflock : s'.fp.s_flock = s.fp.s_flock)
    (hnfree : s'.fp.s_nfree = s.fp.s_nfree) (hfree : s'.fp.s_free = s.fp.s_free)
    (hblk : ∀ c, c ∈ x.val ∨ (∃ q, q ≠ p ∧ (s.pc q).carries = some c) → s'.blk c = s.blk c) :
    Related total s' x' := by
  have hlocks : ∀ q, (s'.pc q).locks = (s.pc q).locks := by
    intro q
    by_cases hqp : q = p
    · rw [hqp, hp, hp']
    · exact hm.locks hqp
  have hstack : ∀ {n free}, FreeStack s.blk n free x.val → FreeStack s'.blk n free x.val :=
    fun hst => hst.congr (fun _ _ => rfl) fun c hc i _ => congrFun (hblk c (.inl hc)) i
  refine ⟨hm.phase_all h, hm.own, hm.nodup, fun b hb => hm.size.inRange (h.inRange b hb),
    hm.ninode ▸ h.ninode, fun hlock => ?_, fun q hq => ?_, fun q r hq hr => ?_, hm.asleep,
    fun hlock => ?_, fun q => ?_⟩
  · obtain ⟨q, hq⟩ := h.holder (hflock ▸ hlock)
    exact ⟨q, (hlocks q).trans hq⟩
  · rw [hflock]
    exact h.locked q (hlocks q ▸ hq)
  · exact h.one q r (hlocks q ▸ hq) (hlocks r ▸ hr)
  · rw [hnfree, hfree, hval]
    exact hstack (h.list (hflock ▸ hlock))
  · by_cases hqp : q = p
    · exact FlockPc.keeps_of_not_locks (hqp ▸ hp')
    rw [← FlockPc.keeps_woken, hm.others q hqp, FlockPc.keeps_woken, hval]
    -- the list may be in the block that `q` carries, which the step leaves alone as well
    exact (h.keeps q).congr hnfree hfree (fun c hc => hblk c (.inl hc)) fun c hc =>
      hblk c (.inr ⟨q, hqp, hc⟩)

end Moves

/-! ## Who has which block -/

/-- A step in which no block changes hands. -/
theorem own_congr (hused : s'.used = s.used) (hothers : ∀ q, q ≠ p → (s'.pc q).woken = (s.pc q).woken)
    (hp : (s'.pc p).carries = (s.pc p).carries) : s'.own = s.own := by
  funext o
  cases o with
  | none => simp only [own, hused]
  | some q =>
    by_cases hqp : q = p
    · simp only [own, hqp, hp]
    · simp only [own]
      rw [← FlockPc.carries_woken, hothers q hqp, FlockPc.carries_woken]

/-- The others have what they had. -/
theorem own_others (hothers : ∀ q, q ≠ p → (s'.pc q).woken = (s.pc q).woken) (hq : q ≠ p) :
    s'.own (some q) = s.own (some q) := by
  simp only [own]
  rw [← FlockPc.carries_woken, hothers q hq, FlockPc.carries_woken]

theorem own_some (hp : (s.pc p).carries = some b) : s.own (some p) = {b} := by
  ext c
  simp only [own, hp, Set.mem_ofPred_eq, Set.mem_singleton_iff, Option.some.injEq]
  exact eq_comm

theorem own_some_empty (hp : (s.pc p).carries = none) : s.own (some p) = ∅ := by
  ext c
  simp [own, hp]

variable {st : List ℤ}

/-- A process takes the first block of the list. -/
theorem own_pop (h : Ownership s.own {c | c ∈ b :: st} total) (hnodup : (b :: st).Nodup)
    (hused : s'.used = s.used) (hothers : ∀ q, q ≠ p → (s'.pc q).woken = (s.pc q).woken)
    (hp : (s.pc p).carries = none) (hp' : (s'.pc p).carries = some b) :
    Ownership s'.own {c | c ∈ st} total := by
  have hb : b ∉ st := (List.nodup_cons.mp hnodup).1
  have hrest : ({c | c ∈ b :: st} : Set ℤ) \ {b} = {c | c ∈ st} := by
    ext c
    simp only [Set.mem_sdiff, Set.mem_ofPred_eq, List.mem_cons, Set.mem_singleton_iff]
    refine ⟨fun hc => hc.1.resolve_left hc.2, fun hc => ⟨.inr hc, ?_⟩⟩
    rintro rfl
    exact hb hc
  rw [← hrest]
  refine h.alloc (i := some p) ?_ (own_some_empty hp) (own_some hp') ?_
  · exact Set.singleton_subset_iff.mpr List.mem_cons_self
  · rintro (_ | q) hq
    · simp only [own, hused]
    · exact own_others hothers (by simpa using hq)

/-- A process gives a block back to the list. -/
theorem own_push (h : Ownership s.own {c | c ∈ st} total)
    (hused : s'.used = s.used) (hothers : ∀ q, q ≠ p → (s'.pc q).woken = (s.pc q).woken)
    (hp : (s.pc p).carries = some b) (hp' : (s'.pc p).carries = none) :
    Ownership s'.own {c | c ∈ b :: st} total := by
  have hmore : ({c | c ∈ b :: st} : Set ℤ) = {c | c ∈ st} ∪ s.own (some p) := by
    rw [own_some hp]
    ext c
    simp
  rw [hmore]
  refine h.release (own_some_empty hp') ?_
  rintro (_ | q) hq
  · simp only [own, hused]
  · exact own_others hothers (by simpa using hq)

/-- A process hands a block to its caller. -/
theorem own_ret {free : Set ℤ} (h : Ownership s.own free total)
    (hused : s'.used = insert b s.used) (hothers : ∀ q, q ≠ p → (s'.pc q).woken = (s.pc q).woken)
    (hp : (s.pc p).carries = some b) (hp' : (s'.pc p).carries = none) :
    Ownership s'.own free total := by
  refine h.hand (i := some p) (j := none) (by simp) subset_rfl ?_ ?_ ?_
  · rw [own_some_empty hp', Set.sdiff_self]
  · rw [own_some hp]
    ext c
    simp [own, hused]
  · rintro (_ | q) hq hnone
    · exact absurd rfl hnone
    · exact own_others hothers (by simpa using hq)

/-- A caller hands a block to its process. -/
theorem own_call {free : Set ℤ} (h : Ownership s.own free total) (hb : b ∈ s.used)
    (hused : s'.used = s.used.erase b) (hothers : ∀ q, q ≠ p → (s'.pc q).woken = (s.pc q).woken)
    (hp : (s.pc p).carries = none) (hp' : (s'.pc p).carries = some b) :
    Ownership s'.own free total := by
  refine h.hand (i := none) (j := some p) (by simp) (Set.singleton_subset_iff.mpr hb) ?_ ?_ ?_
  · ext c
    simp [own, hused, and_comm]
  · rw [own_some_empty hp, own_some hp', Set.empty_union]
  · rintro (_ | q) hnone hq
    · exact absurd rfl hnone
    · exact own_others hothers (by simpa using hq)

/-! ## The steps -/

/-- A caller changes a block that it has. -/
theorem Related.write (h : Related total s x) (hb : b ∈ s.used) (words : ℕ → ℤ) :
    Related total { s with blk := update s.blk b words } x := by
  have hown : b ∈ s.own none := hb
  have hlist : ∀ c ∈ x.val, update s.blk b words c = s.blk c := by
    intro c hc
    refine update_of_ne (fun hcb => ?_) _ s.blk
    rw [hcb] at hc
    exact h.own.not_free_of_mem hown hc
  have hcarried : ∀ q c, (s.pc q).carries = some c → update s.blk b words c = s.blk c := by
    intro q c hc
    refine update_of_ne (fun hcb => ?_) _ s.blk
    rw [hcb] at hc
    cases h.own.eq_of_mem (show b ∈ s.own (some q) from hc) hown
  refine ⟨h.phase, h.own, h.nodup, h.inRange, h.ninode, h.holder, h.locked, h.one, h.asleep,
    fun hfree => ?_, fun q => (h.keeps q).congr rfl rfl hlist (hcarried q)⟩
  exact (h.list hfree).congr (fun _ _ => rfl) fun c hc i _ => congrFun (hlist c hc) i

section Steps

variable [DecidableEq P] {s₁ : Flock P} {c : FlockPc} {f : CallPhase FlockOp (Option Alloc)}

@[simp] theorem setPc_self (s : Flock P) (p : P) (c : FlockPc) : (s.setPc p c).pc p = c := by
  simp only [setPc, update_self]

/-- The others stay where they stood. -/
theorem setPc_of_ne (s : Flock P) (c : FlockPc) (h : q ≠ p) : (s.setPc p c).pc q = s.pc q := by
  simp only [setPc, update_of_ne h]

/-- The others stand where they stood, awake or asleep. -/
theorem setPc_others (hpc : ∀ q, (s₁.pc q).woken = (s.pc q).woken) (c : FlockPc) (q : P)
    (hq : q ≠ p) : ((s₁.setPc p c).pc q).woken = (s.pc q).woken := by
  rw [setPc_of_ne s₁ c hq, hpc]

/-- The process goes to `c`; the others are where they were, but may have been woken. -/
theorem Moves.of_setPc (hpc : ∀ q, (s₁.pc q).woken = (s.pc q).woken)
    (hphase : f = c.phase) (hown : Ownership (s₁.setPc p c).own {b | b ∈ st} total)
    (hnodup : st.Nodup) (hsize : s₁.fp.SameSize s.fp) (hninode : s₁.fp.s_ninode = s.fp.s_ninode)
    (hp : c.asleep = true → s₁.fp.s_flock = true)
    (hasleep : ∀ q, (s₁.pc q).asleep = true → s₁.fp.s_flock = true) :
    Moves total p s (s₁.setPc p c) x ⟨st, update x.phase p f⟩ := by
  refine ⟨setPc_others hpc c, ?_, fun q hq => update_of_ne hq f x.phase, hown, hnodup, hsize,
    hninode, fun q hq => ?_⟩
  · rw [setPc_self, ← hphase]
    exact update_self p f x.phase
  · by_cases hqp : q = p
    · rw [hqp, setPc_self] at hq
      exact hp hq
    · rw [setPc_of_ne s₁ c hqp] at hq
      exact hasleep q hq

/-- A process that calls `alloc` comes to its loop. -/
theorem Related.call_alloc (h : Related total s x) (hp : s.pc p = .user) :
    Related total (({ s with fp := s.fp.checkCounts } : Flock P).setPc p (.alloc_loop false))
      ⟨x.val, update x.phase p (.asked .alloc)⟩ := by
  rw [h.checkCounts]
  have hothers := setPc_others (s := s) (p := p) (fun q => rfl) (.alloc_loop false)
  have hown : (s.setPc p (.alloc_loop false)).own = s.own :=
    own_congr rfl hothers (by rw [setPc_self, hp]; rfl)
  have hm : Moves total p s (s.setPc p (.alloc_loop false)) x
      ⟨x.val, update x.phase p (.asked .alloc)⟩ :=
    .of_setPc (fun q => rfl) rfl (h.own.congr (congrFun hown)) h.nodup ⟨rfl, rfl⟩ rfl nofun h.asleep
  exact hm.outside h (by rw [hp]; rfl) (by rw [setPc_self]; rfl) rfl rfl rfl rfl fun c _ => rfl

/-- A process that calls `free` comes to its loop, and has the block from its caller. -/
theorem Related.call_free (h : Related total s x) (hp : s.pc p = .user) (hb : b ∈ s.used) :
    Related total (({ s with
      fp := { s.fp.checkCounts with s_fmod := true }
      used := s.used.erase b } : Flock P).setPc p (.free_loop b false))
      ⟨x.val, update x.phase p (.asked (.free b))⟩ := by
  rw [h.checkCounts]
  have hm : Moves total p s (({ s with
      fp := { s.fp with s_fmod := true }
      used := s.used.erase b } : Flock P).setPc p (.free_loop b false)) x
      ⟨x.val, update x.phase p (.asked (.free b))⟩ := by
    refine .of_setPc (fun q => rfl) rfl ?_ h.nodup ⟨rfl, rfl⟩ rfl nofun h.asleep
    exact own_call h.own hb rfl (setPc_others (fun q => rfl) _) (by rw [hp]; rfl)
      (by rw [setPc_self]; rfl)
  exact hm.outside h (by rw [hp]; rfl) (by rw [setPc_self]; rfl) rfl rfl rfl rfl fun c _ => rfl

/-- A process that finds the list locked goes to sleep in its loop. -/
theorem Related.sleep (h : Related total s x) (hlock : s.fp.s_flock = true)
    (hphase : (s.pc p).phase = c.phase) (hcarries : c.carries = (s.pc p).carries)
    (hp : (s.pc p).locks = false) (hp' : c.locks = false) : Related total (s.setPc p c) x := by
  have hothers := setPc_others (s := s) (p := p) (fun q => rfl) c
  have hown : (s.setPc p c).own = s.own := own_congr rfl hothers (by rw [setPc_self, hcarries])
  have hm : Moves total p s (s.setPc p c) x ⟨x.val, update x.phase p (x.phase p)⟩ :=
    .of_setPc (fun q => rfl) ((h.phase p).trans hphase) (h.own.congr (congrFun hown)) h.nodup
      ⟨rfl, rfl⟩ rfl (fun _ => hlock) h.asleep
  rw [update_eq_self] at hm
  exact hm.outside h hp (by rw [setPc_self, hp']) rfl rfl rfl rfl fun c _ => rfl

variable {es : List (Event P)}

/-- A call of the list that has its effect and returns at once. -/
theorem emits_act_ret {o : FlockOp} (h : x.phase p = .asked o) :
    Emits (AtomicObject.Step FlockOp.apply) x [.ret p (o.apply x.val).2]
      ⟨(o.apply x.val).1, update x.phase p .idle⟩ := by
  have hdone : update x.phase p (.done (o.apply x.val).2) p = .done (o.apply x.val).2 :=
    update_self p _ x.phase
  have hret := (Emits.single (.act h)).tail (AtomicObject.Step.ret hdone)
  rwa [update_idem] at hret

/-- `alloc` from its loop on: it sleeps, or it has the effect of a pop, with the result of one. -/
theorem Related.alloc (h : Related total s x) (hp : s.pc p = .alloc_loop false)
    (hs : s.alloc p = (s', es)) :
    ∃ x', Emits (AtomicObject.Step FlockOp.apply) x es x' ∧ Related total s' x' := by
  have hasked : x.phase p = .asked .alloc := (h.phase p).trans (by rw [hp]; rfl)
  unfold Flock.alloc at hs
  split at hs
  · next hlock =>
    obtain ⟨rfl, rfl⟩ := Prod.mk.inj hs
    exact ⟨x, .refl, h.sleep hlock (by rw [hp]; rfl) (by rw [hp]; rfl) (by rw [hp]; rfl) rfl⟩
  · next hfree =>
    rw [Bool.not_eq_true] at hfree
    have hstack := h.list hfree
    obtain ⟨val, phase⟩ := x
    cases val with
    | nil =>
      obtain ⟨n, hpick⟩ := Volumes.pick_nil hstack
      rw [hpick] at hs
      obtain ⟨rfl, rfl⟩ := Prod.mk.inj hs
      refine ⟨_, emits_act_ret hasked, ?_⟩
      have hothers := setPc_others (s := s) (p := p) (fun q => rfl) .user
      have hm : Moves total p s (({ s with fp := { s.fp with s_nfree := 0 } } : Flock P).setPc p
          .user) ⟨[], phase⟩ ⟨[], update phase p .idle⟩ := by
        refine .of_setPc (fun q => rfl) rfl (h.own.congr (congrFun ?_)) h.nodup ⟨rfl, rfl⟩ rfl nofun
          h.asleep
        exact own_congr rfl hothers (by rw [setPc_self, hp]; rfl)
      refine hm.inside h (.inl hfree) ?_ (fun _ => .empty _) ?_
      · rw [setPc_self]
        exact hfree
      · rw [setPc_self]
        trivial
    | cons b st =>
      have hbtotal : b ∈ total := h.own.mem_total_iff.mpr (.inr List.mem_cons_self)
      obtain ⟨n, hpick, hrest⟩ := Volumes.pick_cons hstack (h.inRange b hbtotal)
      rw [hpick] at hs
      have hdone : Emits (AtomicObject.Step FlockOp.apply) (⟨b :: st, phase⟩ : Pool P) []
          ⟨st, update phase p (.done (some (.buf b)))⟩ := .single (.act hasked)
      have hnodup : st.Nodup := (List.nodup_cons.mp h.nodup).2
      dsimp only at hs
      split at hs
      -- the last entry: the rest of the list is in the block itself
      · next hlast =>
        obtain ⟨rfl, rfl⟩ := Prod.mk.inj hs
        refine ⟨_, hdone, ?_⟩
        have hm : Moves total p s (({ s with
            fp := { s.fp with
              s_nfree := n
              s_flock := true } } : Flock P).setPc p (.alloc_bread b)) ⟨b :: st, phase⟩
            ⟨st, update phase p (.done (some (.buf b)))⟩ := by
          refine .of_setPc (fun q => rfl) rfl ?_ hnodup ⟨rfl, rfl⟩ rfl nofun fun q hq => rfl
          exact own_pop h.own h.nodup rfl (setPc_others (fun q => rfl) _) (by rw [hp]; rfl)
            (by rw [setPc_self]; rfl)
        obtain ⟨rfl, hlist⟩ := hrest.resolve_right fun hn => by omega
        refine hm.inside h (.inl hfree) ?_ nofun ?_
        · rw [setPc_self]
          rfl
        · rw [setPc_self]
          exact ⟨rfl, hlist⟩
      · next hmore =>
        obtain ⟨rfl, rfl⟩ := Prod.mk.inj hs
        refine ⟨_, hdone, ?_⟩
        have hm : Moves total p s (({ s with fp := { s.fp with s_nfree := n } } : Flock P).setPc p
            (.alloc_getblk b)) ⟨b :: st, phase⟩ ⟨st, update phase p (.done (some (.buf b)))⟩ := by
          refine .of_setPc (fun q => rfl) rfl ?_ hnodup ⟨rfl, rfl⟩ rfl nofun h.asleep
          exact own_pop h.own h.nodup rfl (setPc_others (fun q => rfl) _) (by rw [hp]; rfl)
            (by rw [setPc_self]; rfl)
        obtain ⟨-, hlist⟩ := hrest.resolve_left fun hn => hmore (by simp [hn.1])
        refine hm.inside h (.inl hfree) ?_ (fun _ => hlist) ?_
        · rw [setPc_self]
          exact hfree
        · rw [setPc_self]
          trivial

/-- `free` from its loop on: it sleeps, or it has the effect of a push, at once or with the list
still to be saved. -/
theorem Related.free (h : Related total s x) (hp : s.pc p = .free_loop b false)
    (hs : s.free p b = (s', es)) :
    ∃ x', Emits (AtomicObject.Step FlockOp.apply) x es x' ∧ Related total s' x' := by
  have hasked : x.phase p = .asked (.free b) := (h.phase p).trans (by rw [hp]; rfl)
  have hcarries : (s.pc p).carries = some b := by rw [hp]; rfl
  obtain ⟨hbtotal, hbfree, -⟩ := h.carries hcarries
  have hb := h.inRange b hbtotal
  unfold Flock.free at hs
  split at hs
  · next hlock =>
    obtain ⟨rfl, rfl⟩ := Prod.mk.inj hs
    exact ⟨x, .refl, h.sleep hlock (by rw [hp]; rfl) (by rw [hp]; rfl) (by rw [hp]; rfl) rfl⟩
  · next hfree =>
    rw [if_neg (by simp [hb.1])] at hs
    rw [Bool.not_eq_true] at hfree
    obtain ⟨hpos, hstack⟩ := Filsys.stack_restart (h.list hfree)
    obtain ⟨hsize, hflock, hninode⟩ := Volumes.restart_rest s.fp
    have hnodup : (b :: x.val).Nodup := List.nodup_cons.mpr ⟨hbfree, h.nodup⟩
    dsimp only at hs
    split at hs
    -- the hundred entries are full, and have to be saved first
    · next hfull =>
      obtain ⟨rfl, rfl⟩ := Prod.mk.inj hs
      refine ⟨x, .refl, ?_⟩
      have hothers := setPc_others (s := s) (p := p) (fun q => rfl) (.free_getblk b)
      have hm : Moves total p s (({ s with
          fp := { s.fp.restart with s_flock := true } } : Flock P).setPc p (.free_getblk b)) x
          ⟨x.val, update x.phase p (.asked (.free b))⟩ := by
        refine .of_setPc (fun q => rfl) rfl (h.own.congr (congrFun ?_)) h.nodup hsize hninode nofun
          fun q _ => rfl
        exact own_congr rfl hothers (by rw [setPc_self, hp]; rfl)
      rw [← hasked, update_eq_self] at hm
      refine hm.inside h (.inl hfree) ?_ nofun ?_
      · rw [setPc_self]
        rfl
      · rw [setPc_self]
        exact ⟨hfull, hstack⟩
    · next hroom =>
      obtain ⟨rfl, rfl⟩ := Prod.mk.inj hs
      refine ⟨_, emits_act_ret hasked, ?_⟩
      have hm : Moves total p s (({ s with fp := s.fp.restart.push b } : Flock P).setPc p .user) x
          ⟨b :: x.val, update x.phase p .idle⟩ := by
        refine .of_setPc (fun q => rfl) rfl ?_ hnodup hsize hninode nofun fun q hq => ?_
        · exact own_push h.own rfl (setPc_others (fun q => rfl) _) hcarries (by rw [setPc_self]; rfl)
        · exact hflock.trans (h.asleep q hq)
      refine hm.inside h (.inl hfree) ?_ (fun _ => ?_) ?_
      · rw [setPc_self]
        exact hflock.trans hfree
      · obtain ⟨n, hn⟩ : ∃ n : ℕ, s.fp.restart.s_nfree = n + 1 :=
          ⟨(s.fp.restart.s_nfree - 1).toNat, by omega⟩
        rw [hn] at hstack
        have htop : s.fp.restart.s_nfree.toNat = n + 1 := by omega
        have hpush := hstack.push (by omega) b
        rw [← hn, ← htop] at hpush
        exact hpush
      · rw [setPc_self]
        trivial

/-- The rest of the list is loaded, and whoever waits for it is woken. -/
theorem Related.bread (h : Related total s x) (hp : s.pc p = .alloc_bread b) :
    Related total (({ s with fp := s.fp.reload (s.blk b) } : Flock P).unlock.setPc p
      (.alloc_getblk b)) x := by
  have hkeeps := h.keeps p
  rw [hp] at hkeeps
  have hpc : ∀ q, (({ s with fp := s.fp.reload (s.blk b) } : Flock P).unlock.pc q).woken =
      (s.pc q).woken := fun q => FlockPc.woken_woken _
  have hm : Moves total p s (({ s with fp := s.fp.reload (s.blk b) } : Flock P).unlock.setPc p
      (.alloc_getblk b)) x ⟨x.val, update x.phase p (x.phase p)⟩ := by
    refine .of_setPc hpc ((h.phase p).trans (by rw [hp]; rfl)) (h.own.congr (congrFun ?_)) h.nodup
      ⟨rfl, rfl⟩ rfl nofun fun q hq => ?_
    · exact own_congr rfl (setPc_others hpc _) (by rw [setPc_self, hp]; rfl)
    · simp [unlock] at hq
  rw [update_eq_self] at hm
  refine hm.inside h (.inr (by rw [hp]; rfl)) ?_ (fun _ => ?_) ?_
  · rw [setPc_self]
    rfl
  · exact hkeeps.2.congr (fun i hi => if_pos hi) fun c _ i _ => rfl
  · rw [setPc_self]
    trivial

/-- `alloc` clears the block and returns it. -/
theorem Related.getblk (h : Related total s x) (hp : s.pc p = .alloc_getblk b) :
    Related total (({ s with
      fp := { s.fp with s_fmod := true }
      blk := update s.blk b fun _ => 0
      used := insert b s.used } : Flock P).setPc p .user)
      ⟨x.val, update x.phase p .idle⟩ := by
  have hcarries : (s.pc p).carries = some b := by rw [hp]; rfl
  obtain ⟨-, hbfree, -⟩ := h.carries hcarries
  have hm : Moves total p s (({ s with
      fp := { s.fp with s_fmod := true }
      blk := update s.blk b fun _ => 0
      used := insert b s.used } : Flock P).setPc p .user) x
      ⟨x.val, update x.phase p .idle⟩ := by
    refine .of_setPc (fun q => rfl) rfl ?_ h.nodup ⟨rfl, rfl⟩ rfl nofun h.asleep
    exact own_ret h.own rfl (setPc_others (fun q => rfl) _) hcarries (by rw [setPc_self]; rfl)
  refine hm.outside h (by rw [hp]; rfl) (by rw [setPc_self]; rfl) rfl rfl rfl rfl ?_
  -- the block that is cleared holds no part of the list
  rintro c (hc | ⟨q, hq, hc⟩)
  · refine update_of_ne (fun hcb => ?_) _ s.blk
    rw [hcb] at hc
    exact hbfree hc
  · refine update_of_ne (fun hcb => ?_) _ s.blk
    rw [hcb] at hc
    exact hq (h.carries_eq hc hcarries)

/-- The list is saved in the block that comes to its head. -/
theorem Related.save (h : Related total s x) (hp : s.pc p = .free_getblk b) (junk : ℕ → ℤ) :
    Related total (({ s with
      fp := { s.fp with s_nfree := 0 }
      blk := update s.blk b (s.fp.save junk) } : Flock P).setPc p (.free_bwrite b)) x := by
  have hcarries : (s.pc p).carries = some b := by rw [hp]; rfl
  obtain ⟨-, hbfree, -⟩ := h.carries hcarries
  have hkeeps := h.keeps p
  rw [hp] at hkeeps
  have hm : Moves total p s (({ s with
      fp := { s.fp with s_nfree := 0 }
      blk := update s.blk b (s.fp.save junk) } : Flock P).setPc p (.free_bwrite b)) x
      ⟨x.val, update x.phase p (x.phase p)⟩ := by
    refine .of_setPc (fun q => rfl) ((h.phase p).trans (by rw [hp]; rfl))
      (h.own.congr (congrFun ?_)) h.nodup ⟨rfl, rfl⟩ rfl nofun h.asleep
    exact own_congr rfl (setPc_others (fun q => rfl) _) (by rw [setPc_self, hp]; rfl)
  rw [update_eq_self] at hm
  have hlock := h.locked p (by rw [hp]; rfl)
  refine hm.inside h (.inr (by rw [hp]; rfl)) ?_ (fun hfree => ?_) ?_
  · rw [setPc_self]
    exact hlock
  · exact absurd (hlock.symm.trans hfree) (by simp)
  · rw [setPc_self]
    refine ⟨rfl, ?_⟩
    -- what is in the block is what was in the super block
    have hself : update s.blk b (s.fp.save junk) b = s.fp.save junk := update_self b _ s.blk
    show FreeStack (update s.blk b (s.fp.save junk)) (update s.blk b (s.fp.save junk) b 0)
      (fun i => update s.blk b (s.fp.save junk) b (i + 1)) x.val
    rw [hself]
    refine hkeeps.2.congr (fun i hi => if_pos hi) fun c hc i _ => ?_
    rw [update_of_ne]
    rintro rfl
    exact hbfree hc

/-- The block that has taken the list becomes the only entry, and whoever waits is woken. -/
theorem Related.bwrite (h : Related total s x) (hp : s.pc p = .free_bwrite b) :
    ∃ x', Emits (AtomicObject.Step FlockOp.apply) x [.ret p none] x' ∧
      Related total (({ s with fp := s.fp.push b } : Flock P).unlock.setPc p .user) x' := by
  -- the call takes effect here: `free` answers, and the block is on the stack
  have hasked : x.phase p = .asked (.free b) := (h.phase p).trans (by rw [hp]; rfl)
  have hcarries : (s.pc p).carries = some b := by rw [hp]; rfl
  obtain ⟨hbtotal, hbfree, -⟩ := h.carries hcarries
  have hkeeps := h.keeps p
  rw [hp] at hkeeps
  have hpc : ∀ q, (({ s with fp := s.fp.push b } : Flock P).unlock.pc q).woken = (s.pc q).woken :=
    fun q => FlockPc.woken_woken _
  -- the block moves from the process to the stack
  have hm : Moves total p s (({ s with fp := s.fp.push b } : Flock P).unlock.setPc p .user) x
      ⟨b :: x.val, update x.phase p .idle⟩ := by
    refine .of_setPc hpc rfl ?_ (List.nodup_cons.mpr ⟨hbfree, h.nodup⟩) ⟨rfl, rfl⟩ rfl nofun
      fun q hq => ?_
    · exact own_push h.own rfl (setPc_others hpc _) hcarries (by rw [setPc_self]; rfl)
    · simp [unlock] at hq
  refine ⟨_, emits_act_ret hasked, hm.inside h (.inr (by rw [hp]; rfl)) ?_ (fun _ => ?_) ?_⟩
  · rw [setPc_self]
    rfl
  -- the new stack: the one entry, linking to the block just written
  · obtain ⟨hzero, hstack⟩ := hkeeps
    have hentry : update s.fp.s_free 0 b 0 = b := update_self 0 b s.fp.s_free
    have hlink : FreeStack s.blk 1 (update s.fp.s_free 0 b) (b :: x.val) := by
      have hne : update s.fp.s_free 0 b 0 ≠ 0 := by
        rw [hentry]
        exact (h.inRange b hbtotal).2
      have hrest := FreeStack.link (n := 0) (by omega) hne (by rwa [hentry])
      rwa [hentry] at hrest
    show FreeStack s.blk (s.fp.s_nfree + 1) (update s.fp.s_free s.fp.s_nfree.toNat b) (b :: x.val)
    rw [hzero]
    exact hlink
  · rw [setPc_self]
    trivial

/-- `alloc` has a buffer for the block, clears it and returns it. -/
theorem run_alloc_getblk (h : s.pc p = .alloc_getblk b) (junk : ℕ → ℤ) :
    s.run p junk = some (({ s with
      fp := { s.fp with s_fmod := true }
      blk := update s.blk b fun _ => 0
      used := insert b s.used } : Flock P).setPc p .user, [.ret p (some (.buf b))]) := by
  simp only [Flock.run, h]

/-- `alloc` has read the next list. -/
theorem run_alloc_bread (h : s.pc p = .alloc_bread b) (junk : ℕ → ℤ) :
    s.run p junk = some (({ s with fp := s.fp.reload (s.blk b) } : Flock P).unlock.setPc p
      (.alloc_getblk b), []) := by
  simp only [Flock.run, h]

/-- `free` has a buffer for the full list, and saves it. -/
theorem run_free_getblk (h : s.pc p = .free_getblk b) (junk : ℕ → ℤ) :
    s.run p junk = some (({ s with
      fp := { s.fp with s_nfree := 0 }
      blk := update s.blk b (s.fp.save junk) } : Flock P).setPc p (.free_bwrite b), []) := by
  simp only [Flock.run, h]

/-- `free` has written the full list. -/
theorem run_free_bwrite (h : s.pc p = .free_bwrite b) (junk : ℕ → ℤ) :
    s.run p junk = some (({ s with fp := s.fp.push b } : Flock P).unlock.setPc p .user,
      [.ret p none]) := by
  simp only [Flock.run, h]

/-- Every step is matched by steps of the atomic list that show the callers the same. -/
theorem Related.step (h : Related total s x) (hs : s.Step es s') :
    ∃ x', Emits (AtomicObject.Step FlockOp.apply) x es x' ∧ Related total s' x' := by
  obtain ⟨a, hlegal, hs⟩ := hs
  cases a with
  | call p o =>
    simp only [Flock.step] at hs
    split_ifs at hs with hp
    have hcall : Emits (AtomicObject.Step FlockOp.apply) x [.call p o]
        ⟨x.val, update x.phase p (.asked o)⟩ :=
      .single (.call o ((h.phase p).trans (by rw [hp]; rfl)))
    obtain ⟨rfl, rfl⟩ := Prod.mk.inj (Option.some.inj hs)
    cases o with
    | alloc =>
      obtain ⟨x', hrun, h'⟩ := (h.call_alloc hp).alloc (setPc_self _ p _) rfl
      exact ⟨x', hcall.trans hrun, h'⟩
    | free b =>
      obtain ⟨x', hrun, h'⟩ := (h.call_free hp hlegal).free (setPc_self _ p _) rfl
      exact ⟨x', hcall.trans hrun, h'⟩
  | run p junk =>
    change s.run p junk = some (s', es) at hs
    -- one case for each place where the process may have been
    cases hp : s.pc p with
    | user => simp [run, hp] at hs
    | alloc_loop a =>
      cases a with
      | true => simp [run, hp] at hs
      | false => exact h.alloc hp (by simpa [run, hp] using hs)
    | free_loop b a =>
      cases a with
      | true => simp [run, hp] at hs
      | false => exact h.free hp (by simpa [run, hp] using hs)
    | alloc_bread b =>
      rw [run_alloc_bread hp] at hs
      obtain ⟨rfl, rfl⟩ := Prod.mk.inj (Option.some.inj hs)
      exact ⟨x, .refl, h.bread hp⟩
    | alloc_getblk b =>
      rw [run_alloc_getblk hp] at hs
      obtain ⟨rfl, rfl⟩ := Prod.mk.inj (Option.some.inj hs)
      exact ⟨_, .single (.ret ((h.phase p).trans (by rw [hp]; rfl))), h.getblk hp⟩
    | free_getblk b =>
      rw [run_free_getblk hp] at hs
      obtain ⟨rfl, rfl⟩ := Prod.mk.inj (Option.some.inj hs)
      exact ⟨x, .refl, h.save hp junk⟩
    | free_bwrite b =>
      rw [run_free_bwrite hp] at hs
      obtain ⟨rfl, rfl⟩ := Prod.mk.inj (Option.some.inj hs)
      exact h.bwrite hp
  | write b words =>
    obtain ⟨rfl, rfl⟩ := Prod.mk.inj (Option.some.inj hs)
    exact ⟨x, .refl, h.write hlegal words⟩

/-! ### Blocks that are neither free nor handed out -/

theorem blk_alloc (s : Flock P) (p : P) : (s.alloc p).1.blk = s.blk := by
  unfold Flock.alloc
  split
  · rfl
  · split
    · rfl
    · split_ifs <;> rfl

theorem blk_free (s : Flock P) (p : P) (b : ℤ) : (s.free p b).1.blk = s.blk := by
  unfold Flock.free
  dsimp only
  split_ifs <;> rfl

/-- No step changes a block that neither the list nor a caller has. -/
theorem Related.blk_of_notMem (h : Related total s x) (hs : s.Step es s') (hb : b ∉ total) :
    s'.blk b = s.blk b := by
  -- a write goes to a block of the volume
  obtain ⟨a, hlegal, hs⟩ := hs
  have hother : ∀ {c} (words : ℕ → ℤ), c ∈ total → update s.blk c words b = s.blk b := by
    intro c words hc
    refine update_of_ne ?_ words s.blk
    rintro rfl
    exact hb hc
  -- by the piece; only `alloc_getblk` and `free_getblk` write, each to the block it carries
  cases a with
  | call p o =>
    simp only [Flock.step] at hs
    split_ifs at hs
    obtain ⟨rfl, -⟩ := Prod.mk.inj (Option.some.inj hs)
    cases o with
    | alloc => rw [call, blk_alloc, setPc]
    | free c => rw [call, blk_free, setPc]
  | write c words =>
    obtain ⟨rfl, -⟩ := Prod.mk.inj (Option.some.inj hs)
    exact hother words (h.own.own_subset none hlegal)
  | run p junk =>
    change s.run p junk = some (s', es) at hs
    cases hp : s.pc p with
    | user => simp [run, hp] at hs
    | alloc_loop a =>
      cases a with
      | true => simp [run, hp] at hs
      | false =>
        have hs : s.alloc p = (s', es) := by simpa [run, hp] using hs
        have hblk := blk_alloc s p
        rw [hs] at hblk
        exact congrFun hblk b
    | free_loop c a =>
      cases a with
      | true => simp [run, hp] at hs
      | false =>
        have hs : s.free p c = (s', es) := by simpa [run, hp] using hs
        have hblk := blk_free s p c
        rw [hs] at hblk
        exact congrFun hblk b
    | alloc_bread c =>
      rw [run_alloc_bread hp] at hs
      obtain ⟨rfl, -⟩ := Prod.mk.inj (Option.some.inj hs)
      rfl
    | alloc_getblk c =>
      rw [run_alloc_getblk hp] at hs
      obtain ⟨rfl, -⟩ := Prod.mk.inj (Option.some.inj hs)
      exact hother _ (h.carries (by rw [hp]; rfl)).1
    | free_getblk c =>
      rw [run_free_getblk hp] at hs
      obtain ⟨rfl, -⟩ := Prod.mk.inj (Option.some.inj hs)
      exact hother _ (h.carries (by rw [hp]; rfl)).1
    | free_bwrite c =>
      rw [run_free_bwrite hp] at hs
      obtain ⟨rfl, -⟩ := Prod.mk.inj (Option.some.inj hs)
      rfl

end Steps

/-! ## Runs -/

section Runs

variable [DecidableEq P] {s₀ : Flock P} {st₀ : List ℤ} {es : List (Event P)}

/-- A volume on which nobody is in a call, with the free blocks `st`. -/
structure Ready (s : Flock P) (st : List ℤ) : Prop where
  user : ∀ p, s.pc p = .user
  unlocked : s.fp.s_flock = false
  ninode : s.fp.s_ninode ≤ 100
  list : FreeStack s.blk s.fp.s_nfree s.fp.s_free st
  nodup : st.Nodup
  /-- What is in use is not free. -/
  used : ∀ b ∈ s.used, b ∉ st
  inRange : ∀ b, b ∈ s.used ∨ b ∈ st → s.fp.InRange b

/-- The blocks that a caller or the list has. -/
def blocks (s : Flock P) (st : List ℤ) : Set ℤ :=
  {b | b ∈ s.used ∨ b ∈ st}

omit [DecidableEq P] in
theorem Ready.related (h : Ready s st) : Related (s.blocks st) s (.init st) := by
  refine ⟨fun p => by rw [h.user p]; rfl, ?_, h.nodup, h.inRange, h.ninode, fun hlock => ?_,
    fun p hp => ?_, fun p q hp => ?_, fun p hp => ?_, fun _ => h.list, fun p => ?_⟩
  · refine .of_mem ?_ ?_ fun b => ⟨?_, ?_⟩
    · rintro (_ | p) (_ | q) b hp hq
      · rfl
      all_goals simp [own, h.user, FlockPc.carries] at hp hq
    · rintro (_ | p) b hp
      · exact h.used b hp
      · simp [own, h.user, FlockPc.carries] at hp
    · rintro (hb | hb)
      · exact .inl ⟨none, hb⟩
      · exact .inr hb
    · rintro (⟨_ | p, hb⟩ | hb)
      · exact .inl hb
      · simp [own, h.user, FlockPc.carries] at hb
      · exact .inr hb
  · rw [h.unlocked] at hlock
    cases hlock
  · rw [h.user p] at hp
    cases hp
  · rw [h.user p] at hp
    cases hp
  · rw [h.user p] at hp
    cases hp
  · rw [h.user p]
    trivial

/-- Whatever the interleaving, `alloc` and `free` are atomic: what the callers see of a run they
could have seen of a list from which one block at a time is taken, or put back, at one moment
between the call and the return. -/
theorem alloc_free_linearizable (h₀ : s₀.Ready st₀) (h : Emits Step s₀ es s) :
    ∃ x : Pool P, Emits (AtomicObject.Step FlockOp.apply) (.init st₀) es x ∧
      (∀ p, x.phase p = (s.pc p).phase) ∧
      (s.fp.s_flock = false → FreeStack s.blk s.fp.s_nfree s.fp.s_free x.val) := by
  obtain ⟨x, hrun, hx⟩ := h.simulate h₀.related fun s es s' x hx hs => hx.step hs
  exact ⟨x, hrun, hx.phase, hx.list⟩

/-- A list of two blocks, the first of which holds the rest of the list. -/
def twoBlocks : Flock (Fin 2) where
  fp :=
    { s_isize := 4
      s_fsize := 100
      s_nfree := 1
      s_free := fun _ => 10
      s_ninode := 0
      s_flock := false
      s_fmod := false }
  blk b i := if b = 10 ∧ i = 0 then 2 else if b = 10 ∧ i = 2 then 11 else 0
  used := {20}
  pc _ := .user

theorem twoBlocks_ready : twoBlocks.Ready [10, 11] where
  user _ := rfl
  unlocked := rfl
  ninode := by decide
  list := .link (n := 0) (by omega) (by decide) (.last (n := 1) (by omega) (by decide))
  nodup := by decide
  used := by decide
  inRange := by
    intro b hb
    have hb : b = 20 ∨ b = 10 ∨ b = 11 := by simpa [twoBlocks] using hb
    rcases hb with rfl | rfl | rfl <;> exact ⟨by decide, by decide⟩

/-- Both processes ask for a block. The second one finds the list locked and sleeps, but its call is
the first to return. -/
theorem twoBlocks_emits : ∃ s, Emits Step twoBlocks
    [.call 0 .alloc, .call 1 .alloc, .ret 1 (some (.buf 11)), .ret 0 (some (.buf 10))] s := by
  have h₀ : Emits Step twoBlocks [] twoBlocks := .refl
  have h₁ := h₀.tail ⟨.call 0 .alloc, trivial, rfl⟩
  have h₂ := h₁.tail ⟨.call 1 .alloc, trivial, rfl⟩
  have h₃ := h₂.tail ⟨.run 0 fun _ => 0, trivial, rfl⟩
  have h₄ := h₃.tail ⟨.run 1 fun _ => 0, trivial, rfl⟩
  have h₅ := h₄.tail ⟨.run 1 fun _ => 0, trivial, rfl⟩
  exact ⟨_, h₅.tail ⟨.run 0 fun _ => 0, trivial, rfl⟩⟩

/-- Two calls, of which the one that came last returns first. -/
theorem alloc_free_linearizable_twoBlocks : ∃ x : Pool (Fin 2),
    Emits (AtomicObject.Step FlockOp.apply) (.init [10, 11])
      [.call 0 .alloc, .call 1 .alloc, .ret 1 (some (.buf 11)), .ret 0 (some (.buf 10))] x := by
  obtain ⟨s, hs⟩ := twoBlocks_emits
  obtain ⟨x, hx, -⟩ := alloc_free_linearizable twoBlocks_ready hs
  exact ⟨x, hx⟩

/-- In every state of every run each block has one place: it is free, or it is on its way in one
call, or the callers have it. None is lost and none comes in. -/
theorem blocks_have_one_place (h₀ : s₀.Ready st₀) (h : Emits Step s₀ es s) :
    ∃ st : List ℤ, st.Nodup ∧ Ownership s.own {b | b ∈ st} (s₀.blocks st₀) ∧
      (s.fp.s_flock = false → FreeStack s.blk s.fp.s_nfree s.fp.s_free st) ∧
      ∀ p, (s.pc p).Keeps s.fp s.blk st := by
  obtain ⟨x, -, hx⟩ := h.simulate h₀.related fun s es s' x hx hs => hx.step hs
  exact ⟨x.val, hx.nodup, hx.own, hx.list, hx.keeps⟩

/-- Each of the two calls has its block. -/
theorem blocks_have_one_place_twoBlocks : ∃ (s : Flock (Fin 2)) (st : List ℤ),
    Emits Step twoBlocks
      [.call 0 .alloc, .call 1 .alloc, .ret 1 (some (.buf 11)), .ret 0 (some (.buf 10))] s ∧
      Ownership s.own {b | b ∈ st} (twoBlocks.blocks [10, 11]) := by
  obtain ⟨s, hs⟩ := twoBlocks_emits
  obtain ⟨st, -, hst, -⟩ := blocks_have_one_place twoBlocks_ready hs
  exact ⟨s, st, hs, hst⟩

/-- The blocks that neither the list nor a caller has at the start keep their words. -/
theorem blk_of_notMem (h₀ : s₀.Ready st₀) (h : Emits Step s₀ es s) (hb : b ∉ s₀.blocks st₀) :
    s.blk b = s₀.blk b := by
  obtain ⟨x, -, -, hblk⟩ := h.simulate (R := fun s x => Related (s₀.blocks st₀) s x ∧
    s.blk b = s₀.blk b) ⟨h₀.related, rfl⟩ fun s es s' x hx hs => by
      obtain ⟨x', hrun, hx'⟩ := hx.1.step hs
      exact ⟨x', hrun, hx', (hx.1.blk_of_notMem hs hb).trans hx.2⟩
  exact hblk

/-! ### Every call can be finished -/

/-- Processes that are inside a call go on. One that asks for a buffer or a transfer goes on only if it
is `given` it: `getblk` sleeps as long as all the buffers are busy, and the callers may have them. -/
def GoesOn (given : Flock P → P → Prop) (s s' : Flock P) : Prop :=
  Relation.ReflTransGen (fun s s' => ∃ p junk es,
    ((s.pc p).buffer = true → given s p) ∧ s.run p junk = some (s', es)) s s'

/-- Whoever asks for a buffer is given it, now and as the processes go on. -/
def BuffersCome (given : Flock P → P → Prop) (s : Flock P) : Prop :=
  ∀ s' p, GoesOn given s s' → (s'.pc p).buffer = true → given s' p

variable {given : Flock P → P → Prop}

/-- A process that has been given what it asks for goes on. -/
theorem GoesOn.run {junk : ℕ → ℤ} (hgiven : (s.pc p).buffer = true → given s p)
    (h : s.run p junk = some (s', es)) : GoesOn given s s' :=
  .single ⟨p, junk, es, hgiven, h⟩

theorem BuffersCome.now (h : BuffersCome given s) : (s.pc p).buffer = true → given s p :=
  h s p .refl

end Runs

end Flock

end UnixV6
