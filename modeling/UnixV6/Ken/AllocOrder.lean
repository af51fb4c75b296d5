import UnixV6.Ken.AllocAtomic

/-!
# Interleaved calls and calls one after another (`ken/alloc.c`)

`Flock` cuts `alloc` and `free` at the places where they sleep; `Volumes` has each of them in one
piece. Whatever the interleaving, there is an order in which the pieces, called one after another,
return the same.
-/

open Function

namespace UnixV6

section Stack

variable {P : Type*} {fp : Filsys} {dev : ℤ} {junk : ℕ → ℤ} {st : List ℤ}

end Stack

namespace Flock

variable {P : Type*} [DecidableEq P] {s s' s₀ : Flock P} {p q : P} {es : List (Event P)}

/-! ## Who acts -/

/-- `alloc` moves no other process, apart from waking it, and completes no call. -/
theorem alloc_others (s : Flock P) :
    (∀ q, q ≠ p → ((s.alloc p).1.pc q).woken = (s.pc q).woken) ∧
      ∀ q, AtomicObject.calls q (s.alloc p).2 = [] := by
  have hgo : ∀ (s₁ : Flock P) c, s₁.pc = s.pc →
      ∀ q, q ≠ p → ((s₁.setPc p c).pc q).woken = (s.pc q).woken := by
    intro s₁ c hpc q hq
    rw [setPc_of_ne _ _ hq, hpc]
  unfold Flock.alloc
  split
  · exact ⟨hgo _ _ rfl, fun _ => rfl⟩
  · split
    · exact ⟨hgo _ _ rfl, fun _ => rfl⟩
    · split <;> exact ⟨hgo _ _ rfl, fun _ => rfl⟩

/-- `free` moves no other process, apart from waking it, and completes no call. -/
theorem free_others (s : Flock P) (b : ℤ) :
    (∀ q, q ≠ p → ((s.free p b).1.pc q).woken = (s.pc q).woken) ∧
      ∀ q, AtomicObject.calls q (s.free p b).2 = [] := by
  have hgo : ∀ (s₁ : Flock P) c, s₁.pc = s.pc →
      ∀ q, q ≠ p → ((s₁.setPc p c).pc q).woken = (s.pc q).woken := by
    intro s₁ c hpc q hq
    rw [setPc_of_ne _ _ hq, hpc]
  unfold Flock.free
  dsimp only
  split_ifs <;> exact ⟨hgo _ _ rfl, fun _ => rfl⟩

/-- A process that runs on moves no other, apart from waking it, and completes no call. -/
theorem run_others {junk : ℕ → ℤ} (hs : s.run p junk = some (s', es)) :
    (∀ q, q ≠ p → (s'.pc q).woken = (s.pc q).woken) ∧ ∀ q, AtomicObject.calls q es = [] := by
  -- waking the others changes nobody's program counter otherwise
  have hunlock : ∀ s₁ : Flock P, s₁.pc = s.pc →
      ∀ c q, q ≠ p → ((s₁.unlock.setPc p c).pc q).woken = (s.pc q).woken := by
    intro s₁ hpc c q hq
    rw [setPc_of_ne _ _ hq]
    show (s₁.pc q).woken.woken = _
    rw [hpc, FlockPc.woken_woken]
  have hgo : ∀ s₁ : Flock P, s₁.pc = s.pc →
      ∀ c q, q ≠ p → ((s₁.setPc p c).pc q).woken = (s.pc q).woken := by
    intro s₁ hpc c q hq
    rw [setPc_of_ne _ _ hq, hpc]
  -- by the piece: the loops ask again, the transfers go on
  cases hp : s.pc p with
  | user => simp [Flock.run, hp] at hs
  | alloc_loop a =>
    cases a with
    | true => simp [Flock.run, hp] at hs
    | false =>
      have hs : s.alloc p = (s', es) := by simpa [Flock.run, hp] using hs
      have hothers := alloc_others (p := p) s
      rwa [hs] at hothers
  | free_loop b a =>
    cases a with
    | true => simp [Flock.run, hp] at hs
    | false =>
      have hs : s.free p b = (s', es) := by simpa [Flock.run, hp] using hs
      have hothers := free_others (p := p) s b
      rwa [hs] at hothers
  | alloc_bread b =>
    rw [run_alloc_bread hp] at hs
    obtain ⟨rfl, rfl⟩ := Prod.mk.inj (Option.some.inj hs)
    exact ⟨hunlock _ rfl _, fun _ => rfl⟩
  | alloc_getblk b =>
    rw [run_alloc_getblk hp] at hs
    obtain ⟨rfl, rfl⟩ := Prod.mk.inj (Option.some.inj hs)
    exact ⟨hgo _ rfl _, fun _ => rfl⟩
  | free_getblk b =>
    rw [run_free_getblk hp] at hs
    obtain ⟨rfl, rfl⟩ := Prod.mk.inj (Option.some.inj hs)
    exact ⟨hgo _ rfl _, fun _ => rfl⟩
  | free_bwrite b =>
    rw [run_free_bwrite hp] at hs
    obtain ⟨rfl, rfl⟩ := Prod.mk.inj (Option.some.inj hs)
    exact ⟨hunlock _ rfl _, fun _ => rfl⟩

/-- A step is one of a single process, if any, which has at most one call in hand with the one that
it makes. -/
theorem Step.actor (hs : s.Step es s') : ∃ p? : Option P,
    (∀ q, some q ≠ p? → (s'.pc q).phase = (s.pc q).phase ∧ AtomicObject.calls q es = []) ∧
      ∀ q, ((s.pc q).phase.pending.toList ++ AtomicObject.calls q es).length ≤ 1 := by
  -- a process has at most one call pending
  have hpending : ∀ q, (s.pc q).phase.pending.toList.length ≤ 1 := fun q => by
    cases (s.pc q).phase.pending <;> simp
  -- the phase does not see whether a process is asleep
  have hphase : ∀ {p}, (∀ q, q ≠ p → (s'.pc q).woken = (s.pc q).woken) →
      ∀ q, some q ≠ some p → (s'.pc q).phase = (s.pc q).phase := by
    intro p hothers q hq
    rw [← FlockPc.phase_woken, hothers q fun h => hq (congrArg some h), FlockPc.phase_woken]
  obtain ⟨a, -, hs⟩ := hs
  cases a with
  | call p o =>
    simp only [Flock.step] at hs
    split_ifs at hs with hp
    obtain ⟨rfl, rfl⟩ := Prod.mk.inj (Option.some.inj hs)
    -- the call's own entry into the loop
    obtain ⟨hothers, hcalls⟩ : (∀ q, q ≠ p → ((s.call p o).1.pc q).woken = (s.pc q).woken) ∧
        ∀ q, AtomicObject.calls q (s.call p o).2 = [] := by
      cases o with
      | alloc =>
        obtain ⟨hothers, hcalls⟩ := alloc_others (p := p)
          (({ s with fp := s.fp.checkCounts } : Flock P).setPc p (.alloc_loop false))
        refine ⟨fun q hq => (hothers q hq).trans ?_, hcalls⟩
        rw [setPc_of_ne _ _ hq]
      | free b =>
        obtain ⟨hothers, hcalls⟩ := free_others (p := p) (({ s with
          fp := { s.fp.checkCounts with s_fmod := true }
          used := s.used.erase b } : Flock P).setPc p (.free_loop b false)) b
        refine ⟨fun q hq => (hothers q hq).trans ?_, hcalls⟩
        rw [setPc_of_ne _ _ hq]
    -- the one call that is recorded
    have hcons : ∀ q, AtomicObject.calls q (.call p o :: (s.call p o).2) =
        if p = q then [o] else [] := by
      intro q
      have hq := hcalls q
      unfold AtomicObject.calls at hq ⊢
      rw [List.filterMap_cons, hq]
      dsimp only
      split <;> simp_all
    refine ⟨some p, fun q hq => ⟨hphase hothers q hq, ?_⟩, fun q => ?_⟩
    · rw [hcons, if_neg fun h => hq (congrArg some h.symm)]
    · rw [hcons]
      split
      · next hpq =>
        rw [← hpq, hp]
        exact le_rfl
      · rw [List.append_nil]
        exact hpending q
  | run p junk =>
    obtain ⟨hothers, hcalls⟩ := run_others hs
    refine ⟨some p, fun q hq => ⟨hphase hothers q hq, hcalls q⟩, fun q => ?_⟩
    rw [hcalls, List.append_nil]
    exact hpending q
  | write b words =>
    obtain ⟨rfl, rfl⟩ := Prod.mk.inj (Option.some.inj hs)
    -- a write by the owner of a block is no call
    refine ⟨none, fun q _ => ⟨rfl, rfl⟩, fun q => ?_⟩
    show ((s.pc q).phase.pending.toList ++ []).length ≤ 1
    rw [List.append_nil]
    exact hpending q

/-! ## The order of the calls -/

variable {total : Set ℤ} {x x' : Pool P} {st₀ : List ℤ}

/-- The operations so far, one after another, on the list as it was. -/
structure InOrder (s : Flock P) (es : List (Event P)) (x : Pool P) (st₀ : List ℤ)
    (ops : List (P × FlockOp)) : Prop where
  val : x.val = (AtomicObject.sequence FlockOp.apply ops st₀).1
  calls : ∀ p, AtomicObject.calls p es = AtomicObject.of p ops ++ (s.pc p).phase.pending.toList
  rets : ∀ p, AtomicObject.of p (AtomicObject.sequence FlockOp.apply ops st₀).2 =
    AtomicObject.rets p es ++ (s.pc p).phase.result.toList

/-- One step's completions are appended to the order. -/
theorem InOrder.append {ops ops' : List (P × FlockOp)} {es' : List (Event P)}
    (h : InOrder s es x st₀ ops)
    (hval : x'.val = (AtomicObject.sequence FlockOp.apply ops' x.val).1)
    (hops : ∀ p, (s.pc p).phase.pending.toList ++ AtomicObject.calls p es' =
          AtomicObject.of p ops' ++ (s'.pc p).phase.pending.toList ∧
        (s.pc p).phase.result.toList ++
            AtomicObject.of p (AtomicObject.sequence FlockOp.apply ops' x.val).2 =
          AtomicObject.rets p es' ++ (s'.pc p).phase.result.toList) :
    InOrder s' (es ++ es') x' st₀ (ops ++ ops') := by
  have hcalls : ∀ p, AtomicObject.calls p (es ++ es') =
      AtomicObject.calls p es ++ AtomicObject.calls p es' := fun p => List.filterMap_append
  have hrets : ∀ p, AtomicObject.rets p (es ++ es') =
      AtomicObject.rets p es ++ AtomicObject.rets p es' := fun p => List.filterMap_append
  refine ⟨?_, fun p => ?_, fun p => ?_⟩
  · rw [AtomicObject.sequence_append, ← h.val, hval]
  · rw [hcalls, h.calls, List.append_assoc, (hops p).1, AtomicObject.of_append, List.append_assoc]
  · rw [AtomicObject.sequence_append, AtomicObject.of_append, h.rets, ← h.val, List.append_assoc,
      (hops p).2, hrets, List.append_assoc]

/-- The volume as the only one that is mounted. -/
def volume (s : Flock P) : Volumes where
  m_bufp p := p = 0
  m_dev _ := 1
  fs _ := s.fp
  blk _ := s.blk

omit [DecidableEq P] in
theorem Ready.freeList (h : s.Ready st₀) : s.volume.FreeList 1 0 st₀ :=
  ⟨rfl, h.unlocked, ⟨h.list.count.1, h.list.count.2, h.ninode⟩, h.list, h.nodup,
    fun b hb => h.inRange b (.inr hb)⟩

end Flock

end UnixV6
