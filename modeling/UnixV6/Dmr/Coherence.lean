import UnixV6.Dmr.BioCoherence
import UnixV6.Dmr.RkSectors

/-!
# The cache refines a plain disk

`CacheSys` adds to the buffer cache what nobody in the kernel keeps: the contents that the latest
write of each block was given, and which buffers have been changed by the process that holds them.
A read returns the former, no delayed write is dropped, and `bflush` brings them to the disk. All
this holds as long as no two of the blocks in use are sent to the same sector, which `rkstrategy`
does not see to.
-/

open Function

namespace UnixV6

variable {π β : Type} {bp x : Ptr} {dev blkno : Dev} {p : π} {k : Pc}

/-! ## Delayed writes -/

namespace BioSys

variable {s s' : BioSys π β} {b : Bio π β} {ring : Ptr → List Ptr} {la q : List Ptr}
  {holder : Ptr → Holder π} {used : Dev → Dev → Prop} {last : Dev → Dev → β} {dirty : Ptr → Bool}

/-- What a piece of code, by which its process comes from `k₀` to `k`, does to a buffer: it keeps its
block and gets no delayed write, or it had none when it was given to another block. -/
def Moves (s b : Bio π β) (k₀ k : Pc) (x : Ptr) : Prop :=
  (b.b_dev x = s.b_dev x ∧ b.b_blkno x = s.b_blkno x ∧
    ((b.b_flags x).b_delwri = true → (s.b_flags x).b_delwri = true) ∧
    (k.writes x → (s.b_flags x).b_delwri = true) ∧
    (k.awaits x → k₀.writes x ∨ k₀.awaits x)) ∨
  (x ∈ k₀.hand ∧ (s.b_flags x).b_delwri = false ∧ (b.b_flags x).b_delwri = false ∧
    ¬k.writes x ∧ ¬k.awaits x)

/-- It is enough that three fields of the header stay. -/
theorem Moves.of_eq {k₀ : Pc} (hdev : b.b_dev = s.b_dev) (hblk : b.b_blkno = s.b_blkno)
    (hdelwri : (b.b_flags x).b_delwri = true → (s.b_flags x).b_delwri = true)
    (hk : k.writes x → (s.b_flags x).b_delwri = true)
    (hawaits : k.awaits x → k₀.writes x ∨ k₀.awaits x) : Moves s.toBio b k₀ k x := by
  refine Or.inl ⟨?_, ?_, hdelwri, hk, hawaits⟩
  · rw [hdev]
  · rw [hblk]

variable [DecidableEq π]

/-- `getblk` returns, and nothing is written or waited for. -/
theorem getblkReturn_moves (t : BioSys π β) (p : π) (bp : Ptr) (k : GetblkRet) :
    (getblkReturn p bp k t).toBio = t.toBio ∧
      ∃ k', (getblkReturn p bp k t).pc = update t.pc p k' ∧ k'.Plain := by
  cases k <;> exact ⟨rfl, _, rfl, fun _ => ⟨not_false, not_false⟩⟩

/-- `bwrite` returns, and nothing is written or waited for. -/
theorem bwriteReturn_moves (t : BioSys π β) (p : π) (k : BwriteRet) :
    (bwriteReturn p k t).toBio = t.toBio ∧
      ∃ k', (bwriteReturn p k t).pc = update t.pc p k' ∧ k'.Plain := by
  cases k <;> exact ⟨rfl, _, rfl, fun _ => ⟨not_false, not_false⟩⟩

/-- `breada` ends, and nothing is written or waited for but what it reads. -/
theorem breadaReturn_moves (t : BioSys π β) (p : π) (dev blkno : Dev) (rbp : Option Ptr) :
    (breadaReturn p dev blkno rbp t).toBio = t.toBio ∧
      ∃ k', (breadaReturn p dev blkno rbp t).pc = update t.pc p k' ∧ k'.Plain := by
  cases rbp <;> exact ⟨rfl, _, rfl, fun _ => ⟨not_false, not_false⟩⟩

section

variable (h : InvAt True used s.toBio s.pc s.held s.cur ring la q holder)

include h

omit [DecidableEq π] in
/-- A request for a buffer in hand, whose flags `f` sets just before. -/
theorem moves_request {f : BFlags → BFlags} (hbuf : bp.IsBuf)
    (hf : (f (s.b_flags bp)).b_delwri = true → (s.b_flags bp).b_delwri = true)
    (hs : (s.toBio.setFlags bp f).strategy bp = some b) (hk : ¬k.writes x)
    (hawaits : k.awaits x → (s.pc p).writes x ∨ (s.pc p).awaits x) :
    Moves s.toBio b (s.pc p) k x := by
  obtain ⟨hfl, hdev, hblk, -, -⟩ := Bio.strategy_accepted hs hbuf.ne_null
    ((h.accepts trivial).accepts bp hbuf) (active_iff h)
  refine Moves.of_eq hdev hblk (fun hd => ?_) (fun hw => absurd hw hk) hawaits
  rw [hfl] at hd
  by_cases hx : x = bp
  · rw [hx, Bio.setFlags_self] at hd
    rw [hx]
    exact hf hd
  · rwa [Bio.setFlags_of_ne hx] at hd

omit h [DecidableEq π] in
/-- Flags are set that do not say whether a buffer is delayed. -/
theorem setFlags_delwri {y : Ptr} (f : BFlags → BFlags)
    (hf : ∀ fl, (f fl).b_delwri = fl.b_delwri) (s : Bio π β) (x : Ptr) :
    ((s.setFlags y f).b_flags x).b_delwri = (s.b_flags x).b_delwri := by
  by_cases hx : x = y
  · rw [hx, Bio.setFlags_self, hf]
  · rw [Bio.setFlags_of_ne hx]

omit h [DecidableEq π] in
/-- Most pieces write nothing, and change nothing in a header that counts here. -/
theorem moves_plain {k₀ : Pc} (hk : k.Plain) (hdev : b.b_dev = s.b_dev)
    (hblk : b.b_blkno = s.b_blkno) (hdelwri : (b.b_flags x).b_delwri = (s.b_flags x).b_delwri) :
    Moves s.toBio b k₀ k x :=
  Moves.of_eq hdev hblk (fun hd => hdelwri.symm.trans hd) (fun hw => absurd hw (hk x).1)
    fun hw => absurd hw (hk x).2

omit h [DecidableEq π] in
theorem moves_refl (hk : k.Plain) : Moves s.toBio s.toBio (s.pc p) k x :=
  moves_plain hk rfl rfl rfl

omit h [DecidableEq π] in
theorem moves_wanted {y : Ptr} (hk : k.Plain) :
    Moves s.toBio (s.toBio.setFlags y fun fl => { fl with b_wanted := true }) (s.pc p) k x :=
  moves_plain (b := s.toBio.setFlags y fun fl => { fl with b_wanted := true }) hk rfl rfl
    (setFlags_delwri (fun fl => { fl with b_wanted := true }) (fun _ => rfl) s.toBio x)

omit h [DecidableEq π] in
theorem moves_notavail {y : Ptr} (hk : k.Plain) :
    Moves s.toBio (s.toBio.notavail y) (s.pc p) k x :=
  moves_plain (b := s.toBio.notavail y) hk rfl rfl (Bio.notavail_flags y x s.toBio).2.2.1

omit [DecidableEq π] in
theorem moves_brelse (hbuf : bp.IsBuf) (hk : k.Plain) :
    Moves s.toBio (s.toBio.brelse bp) (s.pc p) k x :=
  moves_plain hk (Bio.brelse_b_dev_eq (no_error h hbuf)) (Bio.brelse_b_blkno bp _)
    (Bio.brelse_flags hbuf.ne_bfreelist x s.toBio).2.2

omit h [DecidableEq π] in
/-- The process goes on to write a delayed buffer. -/
theorem moves_delayed {k : BwriteRet} (hdev : b.b_dev = s.b_dev) (hblk : b.b_blkno = s.b_blkno)
    (hfl : ∀ x, (b.b_flags x).b_delwri = (s.b_flags x).b_delwri)
    (hdelwri : (s.b_flags bp).b_delwri = true) (x : Ptr) :
    Moves s.toBio b (s.pc p) (.bwrite bp k) x := by
  refine Moves.of_eq hdev hblk (fun hd => (hfl x).symm.trans hd) ?_ fun hw => hw.elim
  rintro rfl
  exact hdelwri

omit h [DecidableEq π] in
/-- A buffer that is not delayed gets another block, so nothing is lost. -/
theorem moves_assign {dp : Ptr} (hhand : bp ∈ (s.pc p).hand)
    (hdelwri : (s.b_flags bp).b_delwri = false) (hk : k.Plain) (x : Ptr) :
    Moves s.toBio (s.toBio.assign bp dp dev blkno) (s.pc p) k x := by
  by_cases hx : x = bp
  · subst hx
    refine Or.inr ⟨hhand, hdelwri, ?_, hk x⟩
    simp [Bio.assign, Bio.setFlags]
  · refine Or.inl ⟨update_of_ne hx .., update_of_ne hx .., fun hd => ?_,
      fun hw => absurd hw (hk x).1, fun hw => absurd hw (hk x).2⟩
    rwa [show (s.toBio.assign bp dp dev blkno).b_flags x = s.b_flags x from update_of_ne hx ..] at hd

omit [DecidableEq π] in
/-- What a process has in hand is a buffer. -/
theorem isBuf_of_hand {l : List Ptr} (hl : (s.pc p).hand = bp :: l) : bp.IsBuf := by
  refine h.cached.isBuf_of_holder ?_
  rw [((h.procs p).owns.own bp).mpr (Or.inr (by rw [hl]; exact List.mem_cons_self))]
  simp

omit h in
/-- The oldest buffer is written first if it is delayed, or it is given to the new block. -/
theorem getblkReuse_moves {k₀ : GetblkRet} (hpc : s.pc p = .getblkReuse bp dev blkno k₀)
    (hs : s.runPiece p = some s') :
    ∃ k, s'.pc = update s.pc p k ∧ ∀ x : Ptr, Moves s.toBio s'.toBio (s.pc p) k x := by
  simp only [runPiece, hpc] at hs
  split at hs
  · rename_i hdelwri
    obtain rfl := Option.some.inj hs
    exact ⟨_, rfl, moves_delayed (b := s.toBio.setFlags bp fun fl => { fl with b_async := true })
      rfl rfl (setFlags_delwri (fun fl => { fl with b_async := true }) (fun _ => rfl) s.toBio)
      hdelwri⟩
  · rename_i hdelwri
    rw [Bool.not_eq_true] at hdelwri
    obtain ⟨dp, -, rfl⟩ := Option.map_eq_some_iff.mp hs
    obtain ⟨hbio, k, hpc', hk⟩ :=
      getblkReturn_moves { s with toBio := s.toBio.assign bp dp dev blkno } p bp k₀
    exact ⟨k, hpc', hbio ▸ moves_assign (by rw [hpc]; exact List.mem_cons_self) hdelwri hk⟩

/-- The first delayed buffer on the free list is written, if there is one. -/
theorem bflush_moves (hpc : s.pc p = .bflush dev) (hs : s.runPiece p = some s') :
    ∃ k, s'.pc = update s.pc p k ∧ ∀ x : Ptr, Moves s.toBio s'.toBio (s.pc p) k x := by
  simp only [runPiece, hpc] at hs
  obtain ⟨found, hfound, rfl⟩ := Option.map_eq_some_iff.mp hs
  cases found with
  | none => exact ⟨_, rfl, fun x => moves_refl fun _ => ⟨not_false, not_false⟩⟩
  | some bp =>
    have hdelwri : (s.b_flags bp).b_delwri = true := by
      rw [h.cached.avail.ringFind_eq h.cached.length_avail_le, Option.some.injEq] at hfound
      have hmatch := List.find?_some hfound
      rw [decide_eq_true_eq] at hmatch
      exact hmatch.1
    refine ⟨_, rfl, moves_delayed
      (b := (s.toBio.setFlags bp fun fl => { fl with b_async := true }).notavail bp) rfl rfl
      (fun x => ?_) hdelwri⟩
    rw [(Bio.notavail_flags bp x _).2.2.1]
    exact setFlags_delwri (fun fl => { fl with b_async := true }) (fun _ => rfl) s.toBio x

/-- Which buffers a piece of code moves. -/
theorem runPiece_moves (hs : s.runPiece p = some s') :
    ∃ k, s'.pc = update s.pc p k ∧ 
      ∀ x : Ptr, x.IsBuf → Moves s.toBio s'.toBio (s.pc p) k x := by
  have hhand : ∀ bp l, (s.pc p).hand = bp :: l → bp.IsBuf := fun bp l => isBuf_of_hand h
  -- one case for each place in the code
  obtain ⟨k, hpc⟩ : ∃ k, s.pc p = k := ⟨_, rfl⟩
  have hs₀ := hs
  rw [hpc] at hhand
  cases k <;> simp only [runPiece, hpc] at hs
  case user => cases hs
  case getblk =>
    split at hs
    · obtain rfl := Option.some.inj hs
      exact ⟨_, rfl, fun x _ => by exact moves_refl fun _ => ⟨not_false, not_false⟩⟩
    · obtain ⟨_ | _, -, rfl⟩ := Option.map_eq_some_iff.mp hs <;>
        exact ⟨_, rfl, fun x _ => by exact moves_refl fun _ => ⟨not_false, not_false⟩⟩
  case getblkFound | getblkAvail =>
    split at hs <;> obtain rfl := Option.some.inj hs
    · refine ⟨_, rfl, fun x _ => moves_wanted (s := s) ?_⟩
      exact fun _ => ⟨not_false, not_false⟩
    · exact ⟨_, rfl, fun x _ => by exact moves_refl fun _ => ⟨not_false, not_false⟩⟩
  case getblkTake bp k =>
    obtain rfl := Option.some.inj hs
    obtain ⟨hbio, k', hpc', hk'⟩ :=
      getblkReturn_moves { s with toBio := s.toBio.notavail bp } p bp k
    exact ⟨k', hpc', fun x _ => hbio ▸ moves_notavail (s := s) hk'⟩
  case getblkOldest =>
    obtain rfl := Option.some.inj hs
    exact ⟨_, rfl, fun x _ => by exact moves_notavail fun _ => ⟨not_false, not_false⟩⟩
  case getblkReuse =>
    obtain ⟨k', hpc', hmoves⟩ := getblkReuse_moves hpc hs₀
    exact ⟨k', hpc', fun x _ => hpc ▸ hmoves x⟩
  case bread bp dev blkno | breadaRead bp dev blkno rablkno =>
    split at hs
    · obtain rfl := Option.some.inj hs
      exact ⟨_, rfl, fun x _ => by exact moves_refl fun _ => ⟨not_false, not_false⟩⟩
    · -- the read goes to the disk
      obtain ⟨b, hb, rfl⟩ := Option.map_eq_some_iff.mp hs
      exact ⟨_, rfl, fun x _ => by
        exact moves_request h (hhand bp _ rfl) id hb not_false fun hw => hw.elim⟩
  case breada =>
    obtain ⟨_ | _, -, rfl⟩ := Option.map_eq_some_iff.mp hs <;>
      exact ⟨_, rfl, fun x _ => by exact moves_refl fun _ => ⟨not_false, not_false⟩⟩
  case readahead dev blkno rablkno rbp =>
    obtain ⟨hbio, k', hpc', hk'⟩ := breadaReturn_moves s p dev blkno rbp
    have hsame : ∀ x, Moves s.toBio s.toBio (s.pc p) k' x := fun x => moves_refl hk'
    split at hs
    · obtain rfl := Option.some.inj hs
      exact ⟨k', hpc', fun x _ => hbio ▸ hsame x⟩
    · obtain ⟨_ | _, -, rfl⟩ := Option.map_eq_some_iff.mp hs
      · exact ⟨_, rfl, fun x _ => by exact moves_refl fun _ => ⟨not_false, not_false⟩⟩
      · exact ⟨k', hpc', fun x _ => hbio ▸ hsame x⟩
  case readaheadRead bp dev blkno rbp =>
    split at hs
    · obtain rfl := Option.some.inj hs
      obtain ⟨hbio, k', hpc', hk'⟩ :=
        breadaReturn_moves { s with toBio := s.toBio.brelse bp } p dev blkno rbp
      exact ⟨k', hpc', fun x _ => hbio ▸ moves_brelse h (hhand bp _ rfl) hk'⟩
    · obtain ⟨b, hb, rfl⟩ := Option.map_eq_some_iff.mp hs
      obtain ⟨hbio, k', hpc', hk'⟩ := breadaReturn_moves { s with toBio := b } p dev blkno rbp
      exact ⟨k', hpc', fun x _ => hbio ▸ moves_request h (hhand bp _ rfl) id hb (hk' x).1
        fun hw => absurd hw (hk' x).2⟩
  case bwrite bp k =>
    obtain ⟨b, hb, rfl⟩ := Option.map_eq_some_iff.mp hs
    split
    · obtain ⟨hbio, k', hpc', hk'⟩ := bwriteReturn_moves { s with toBio := b } p k
      exact ⟨k', hpc', fun x _ => hbio ▸ moves_request h (hhand bp _ rfl) Bool.noConfusion hb
        (hk' x).1 fun hw => absurd hw (hk' x).2⟩
    · refine ⟨_, rfl, fun x _ => ?_⟩
      refine moves_request h (hhand bp _ rfl) Bool.noConfusion hb not_false fun hw => ?_
      rw [hpc]
      exact Or.inl hw
  case iowait bp k =>
    split at hs
    · cases k <;> obtain rfl := Option.some.inj hs <;>
        exact ⟨_, rfl, fun x _ => by exact moves_refl fun _ => ⟨not_false, not_false⟩⟩
    · obtain rfl := Option.some.inj hs
      refine ⟨_, rfl, fun x _ => ?_⟩
      refine Moves.of_eq rfl rfl id (fun hw => hw.elim) fun hw => ?_
      rw [hpc]
      exact Or.inr hw
  case brelse bp k =>
    obtain rfl := Option.some.inj hs
    obtain ⟨hbio, k', hpc', hk'⟩ := bwriteReturn_moves { s with toBio := s.toBio.brelse bp } p k
    exact ⟨k', hpc', fun x _ => hbio ▸ moves_brelse h (hhand bp _ rfl) hk'⟩
  case bflush =>
    obtain ⟨k', hpc', hmoves⟩ := bflush_moves h hpc hs₀
    exact ⟨k', hpc', fun x _ => hpc ▸ hmoves x⟩

end

end BioSys

/-! ## The cache with its history -/

/-- The buffer that a call releases with a write. -/
def Call.writes : Call → Option Ptr
  | .bwrite bp | .bawrite bp | .bdwrite bp => some bp
  | _ => none

namespace BioSys

variable [DecidableEq π] {s s₁ : BioSys π β} {c : Call}

/-- What a call gives back is only taken from those that the process holds. -/
theorem giveUp_toBio (hs : s.giveUp p c = some s₁) : s₁.toBio = s.toBio ∧ s₁.pc = s.pc := by
  unfold giveUp at hs
  split at hs
  · obtain rfl := Option.some.inj hs
    exact ⟨rfl, rfl⟩
  · obtain ⟨-, hs⟩ := Option.ite_none_right_eq_some.mp hs
    obtain rfl := Option.some.inj hs
    exact ⟨rfl, rfl⟩

/-- The entry of a call delays and writes no buffer but the one that it releases with a write, and
it waits for none. -/
theorem call_moves {t : BioSys π β} (hs : s.step (.call p c) = some t) :
    t.b_dev = s.b_dev ∧ t.b_blkno = s.b_blkno ∧
      (∀ x, (t.b_flags x).b_delwri = true → (s.b_flags x).b_delwri = true ∨ c.writes = some x) ∧
      ∃ k, t.pc = update s.pc p k ∧ ∀ x, (k.writes x → c.writes = some x) ∧ ¬k.awaits x := by
  simp only [step] at hs
  split at hs
  case h_2 => cases hs
  obtain ⟨s₁, hgive, rfl⟩ := Option.map_eq_some_iff.mp hs
  obtain ⟨hbio, hpc⟩ := giveUp_toBio hgive
  rw [← hpc, ← hbio]
  cases c with
  | bdwrite y =>
    refine ⟨rfl, rfl, fun x hx => ?_, _, rfl, fun x => ⟨fun hw => hw.elim, not_false⟩⟩
    by_cases hxy : x = y
    · exact Or.inr (congrArg some hxy.symm)
    · change ((s₁.toBio.setFlags y fun fl =>
        { fl with b_delwri := true, b_done := true }).b_flags x).b_delwri = true at hx
      rw [Bio.setFlags_of_ne hxy] at hx
      exact Or.inl hx
  | bawrite y =>
    refine ⟨rfl, rfl, fun x hx => Or.inl ?_, _, rfl, fun x => ⟨congrArg some, not_false⟩⟩
    change ((s₁.toBio.setFlags y fun fl => { fl with b_async := true }).b_flags x).b_delwri =
      true at hx
    rw [setFlags_delwri (fun fl => { fl with b_async := true }) fun _ => rfl] at hx
    exact hx
  | bwrite y =>
    exact ⟨rfl, rfl, fun x hx => Or.inl hx, _, rfl, fun x => ⟨congrArg some, not_false⟩⟩
  | _ =>
    exact ⟨rfl, rfl, fun x hx => Or.inl hx, _, rfl, fun x => ⟨fun hw => hw.elim, not_false⟩⟩

end BioSys

/-- The cache, and what each block was given by the latest release with a write; and which buffers
have been changed since they were obtained. -/
structure CacheSys (π β : Type) extends BioSys π β where
  last : Dev → Dev → β
  dirty : Ptr → Bool

namespace CacheSys

/-- What a step adds to the history. -/
def observe (s : CacheSys π β) (a : BioAct π β) (t : BioSys π β) : CacheSys π β :=
  match a with
  | .call _ c =>
    { t with
      last := match c.writes with
        | some bp => BioSys.record s.toBio s.last bp
        | none => s.last
      dirty := match c.releases with
        | some bp => update s.dirty bp false
        | none => s.dirty }
  | .modify _ bp _ => { t with last := s.last, dirty := update s.dirty bp true }
  | .run _ | .intr => { t with last := s.last, dirty := s.dirty }

variable [DecidableEq π] {s s' : CacheSys π β} {p : π} {used : Dev → Dev → Prop}

def step (s : CacheSys π β) (a : BioAct π β) : Option (CacheSys π β) :=
  (s.toBioSys.step a).map (s.observe a)

/-- The disk has the blocks that are asked for, they are among those in use, and `brelse` is called
only for a buffer that has not been changed. -/
def Ok (used : Dev → Dev → Prop) (s : CacheSys π β) (a : BioAct π β) : Prop :=
  a.Ok True used ∧ ∀ p bp, a = .call p (.brelse bp) → s.dirty bp = false

/-- The cache after `binit`. -/
def boot (zero : β) (disk : BitVec 16 → β) : CacheSys π β where
  toBioSys := BioSys.boot zero disk
  last dev blkno := disk (Bio.rkSector dev blkno)
  dirty _ := false

/-- What holds in every run without I/O errors. -/
def Inv (used : Dev → Dev → Prop) (s : CacheSys π β) : Prop :=
  s.toBioSys.Inv True used ∧ s.toBioSys.Coh used s.last s.dirty

/-- Every step keeps the contents coherent. -/
theorem Inv.step {a : BioAct π β} (h : s.Inv used) (hapart : SectorsApart used)
    (ha : s.Ok used a) (hs : s.step a = some s') : s'.Inv used := by
  obtain ⟨t, ht, rfl⟩ := Option.map_eq_some_iff.mp hs
  obtain ⟨hinv, hc⟩ := h
  have hinv' := hinv.step ha.1 ht
  obtain ⟨ring, la, q, holder, hat⟩ := hinv
  -- one case for each action: what is observed of it is the write or the release in the call
  cases a with
  | call p c =>
    refine ⟨hinv', ?_⟩
    simp only [BioSys.step] at ht
    split at ht
    case h_2 => cases ht
    rename_i hcur hpc
    obtain ⟨s₁, hgive, rfl⟩ := Option.map_eq_some_iff.mp ht
    unfold BioSys.giveUp at hgive
    split at hgive
    · rename_i hrel
      obtain rfl := Option.some.inj hgive
      -- a call that gives nothing back writes nothing
      have hnone : c.writes = none := by cases c <;> first | rfl | cases hrel
      simp only [observe, hrel, hnone]
      exact BioSys.coh_entering hat hcur hc hpc hrel
    · rename_i bp hrel
      obtain ⟨hbp, hgive⟩ := Option.ite_none_right_eq_some.mp hgive
      obtain rfl := Option.some.inj hgive
      -- the calls that give a buffer back
      cases c with
      | bwrite x =>
        obtain rfl : x = bp := Option.some.inj hrel
        exact BioSys.coh_writing hat hcur hc hpc hbp (Or.inl rfl)
      | bawrite x =>
        obtain rfl : x = bp := Option.some.inj hrel
        exact BioSys.coh_writing hat hcur hc hpc hbp (Or.inr (Or.inl rfl))
      | bdwrite x =>
        obtain rfl : x = bp := Option.some.inj hrel
        exact BioSys.coh_writing hat hcur hc hpc hbp (Or.inr (Or.inr rfl))
      | brelse x =>
        obtain rfl : x = bp := Option.some.inj hrel
        exact BioSys.coh_releasing hat hcur hc hpc (ha.2 p x rfl)
      | _ => cases hrel
  -- a piece of the kernel is no call and observes nothing
  | run p =>
    refine ⟨hinv', ?_⟩
    obtain ⟨hrun, ht⟩ := Option.ite_none_right_eq_some.mp ht
    exact BioSys.coh_runPiece hat (hrun.elim Or.inr fun hp => Or.inl hp.1) hc hapart ht
  | modify p bp val =>
    refine ⟨hinv', ?_⟩
    simp only [BioSys.step] at ht
    split at ht
    case h_2 => cases ht
    rename_i hcur hpc
    obtain ⟨hbp, ht⟩ := Option.ite_none_right_eq_some.mp ht
    obtain rfl := Option.some.inj ht
    exact BioSys.coh_modify hat hc hbp val
  | intr =>
    refine ⟨hinv', ?_⟩
    obtain rfl := Option.some.inj ht
    exact BioSys.coh_rkintr hat hc hapart

omit [DecidableEq π] in
/-- `binit` reads and writes nothing. -/
theorem foldl_binitBuf_disk (l : List Ptr) (s : Bio π β) :
    (l.foldl Bio.binitBuf s).disk = s.disk := by
  induction l generalizing s with
  | nil => rfl
  | cons bp l ih =>
    rw [List.foldl_cons, ih, Bio.binitBuf, Bio.brelse_disk]
    rfl

omit [DecidableEq π] in
/-- When the system starts nothing is in core. -/
theorem Inv.boot (zero : β) (disk : BitVec 16 → β) :
    (CacheSys.boot zero disk : CacheSys π β).Inv used := by
  have hdisk : (BioSys.boot zero disk : BioSys π β).disk = disk := by
    unfold BioSys.boot Bio.binit
    dsimp only
    rw [foldl_binitBuf_disk]
    rfl
  refine ⟨BioSys.inv_boot, ⟨?_, fun _ hx => Bool.noConfusion hx, fun _ => trivial⟩⟩
  obtain ⟨s, hfreed, hboot⟩ : ∃ s : Bio π β, _ := BioSys.exists_freed_boot zero disk
  have hneg : (-1 : Dev).slt 0 = true := by decide
  refine ⟨fun x hx hpos => ?_, fun dev blkno _ _ => ?_, fun hact => ?_, fun x hx hd => ?_⟩
  · change ((BioSys.boot zero disk : BioSys π β).b_dev x).slt 0 = false at hpos
    rw [hboot] at hpos
    rw [hfreed.dev x (mem_allBufs.mpr hx), hneg] at hpos
    cases hpos
  · left
    change (BioSys.boot zero disk : BioSys π β).disk _ = disk _
    rw [hdisk]
  · change (BioSys.boot zero disk : BioSys π β).d_active ≠ 0 at hact
    rw [hboot] at hact
    exact absurd hfreed.idle.1 hact
  · change ((BioSys.boot zero disk : BioSys π β).b_flags x).b_delwri = true at hd
    rw [hboot] at hd
    change (s.b_flags x).b_delwri = true at hd
    rw [hfreed.flags x (mem_allBufs.mpr hx)] at hd
    cases hd

/-! ## What the users see -/

/-- The buffer, device and block with which a call of `bread` or `breada` returns next. -/
def returns (s : CacheSys π β) (p : π) : Option (Ptr × Dev × Dev) :=
  match s.pc p with
  | .bread bp dev blkno | .iowait bp (.read dev blkno) =>
    if (s.b_flags bp).b_done then some (bp, dev, blkno) else none
  | _ => none

/-- A read returns the buffer of its block, with the latest contents, and nobody else has it. -/
theorem Inv.read {bp : Ptr} {dev blkno : Dev} (h : s.Inv used) (hret : s.returns p = some (bp, dev, blkno))
    (hpos : dev.slt 0 = false) (hs : s.step (.run p) = some s') :
    bp ∈ s'.held p ∧ s'.b_dev bp = dev ∧ s'.b_blkno bp = blkno ∧ s'.data bp = s'.last dev blkno ∧
      s'.last = s.last ∧ ∀ r, r ≠ p → bp ∉ (s'.pc r).hand ∧ bp ∉ s'.held r := by
  obtain ⟨⟨ring, la, q, holder, hat⟩, hc⟩ := h
  obtain ⟨t, ht, rfl⟩ := Option.map_eq_some_iff.mp hs
  obtain ⟨-, ht⟩ := Option.ite_none_right_eq_some.mp ht
  -- either way the process leaves with the buffer that it has in hand
  have hleave : t = s.toBioSys.leaveWith p bp ∧ bp ∈ (s.pc p).hand ∧ (s.b_flags bp).b_done = true ∧
      s.b_dev bp = dev ∧ s.b_blkno bp = blkno := by
    unfold returns at hret
    simp only [BioSys.runPiece] at ht
    split at hret
    · rename_i x d b hpc
      obtain ⟨hdone, hret⟩ := Option.ite_none_right_eq_some.mp hret
      obtain ⟨rfl, rfl, rfl⟩ : x = bp ∧ d = dev ∧ b = blkno := by simpa using hret
      rw [hpc] at ht ⊢
      simp only [hdone, if_true] at ht
      have hreads := hc.reads_of hpc
      exact ⟨(Option.some.inj ht).symm, List.mem_cons_self, hdone, hreads.1, hreads.2⟩
    · rename_i x d b hpc
      obtain ⟨hdone, hret⟩ := Option.ite_none_right_eq_some.mp hret
      obtain ⟨rfl, rfl, rfl⟩ : x = bp ∧ d = dev ∧ b = blkno := by simpa using hret
      rw [hpc] at ht ⊢
      simp only [hdone, if_true] at ht
      have hreads : Got s.toBio x d b := hc.reads_of hpc
      exact ⟨(Option.some.inj ht).symm, List.mem_cons_self, hdone, hreads.1, hreads.2.1⟩
    · cases hret
  obtain ⟨rfl, hmem, hdone, hdev, hblk⟩ := hleave
  have howns := (hat.procs p).owns
  have hbp : holder bp = .proc p := (howns.own bp).mpr (Or.inr hmem)
  have hbuf := hat.cached.isBuf_of_holder (b := bp) (by simp [hbp])
  refine ⟨?_, hdev, hblk, ?_, rfl, fun r hr => ⟨?_, ?_⟩⟩
  · simp [observe, BioSys.leaveWith, BioSys.leave]
  · have hval := hc.coherent.valid bp hbuf (hdev ▸ hpos) (BioSys.clean_of_hand hat hc hmem)
      (Or.inl hdone)
    rw [hdev, hblk] at hval
    exact hval
  · change bp ∉ (update s.pc p .user r).hand
    rw [update_of_ne hr]
    exact fun hx => BioSys.hand_ne hat hr hbp hx rfl
  · change bp ∉ update s.held p _ r
    rw [update_of_ne hr]
    intro hx
    have hother := ((hat.procs r).owns.own bp).mpr (Or.inl hx)
    rw [hbp] at hother
    exact hr (by simpa using hother.symm)

/-! ## Flushing -/

/-- No buffer of the block has a delayed write, nor does a process write one. -/
def Settled (s : CacheSys π β) (dev blkno : Dev) : Prop :=
  ∀ x : Ptr, x.IsBuf → s.b_dev x = dev → s.b_blkno x = blkno →
    (s.b_flags x).b_delwri = false ∧ ∀ r, ¬(s.pc r).writes x ∧ ¬(s.pc r).awaits x

/-- The action does not release a buffer of the block with a write. -/
def LeavesAlone (dev blkno : Dev) (s : CacheSys π β) : BioAct π β → Prop
  | .call _ c => ∀ x, c.writes = some x → ¬(s.b_dev x = dev ∧ s.b_blkno x = blkno)
  | _ => True

omit [DecidableEq π] in
/-- The end of a transfer delays nothing. -/
theorem rkintr_delwri {s : Bio π β} {x : Ptr} (hact : s.d_actf ≠ .bfreelist) :
    (s.rkintr.b_flags x).b_delwri = (s.b_flags x).b_delwri := by
  unfold Bio.rkintr
  split
  · rfl
  · dsimp only
    rw [Bio.rkstart_b_flags]
    unfold Bio.iodone
    dsimp only
    rw [← Bio.fetch_b_flags s.d_actf s]
    split_ifs
    · rw [(Bio.brelse_flags hact x _).2.2]
      exact BioSys.setFlags_delwri (fun fl => { fl with b_done := true }) (fun _ => rfl) _ x
    · simp only [Bio.wakeup]
      rw [BioSys.setFlags_delwri (fun fl => { fl with b_wanted := false }) fun _ => rfl]
      exact BioSys.setFlags_delwri (fun fl => { fl with b_done := true }) (fun _ => rfl) _ x

/-- A call that leaves the block alone. -/
theorem Settled.enter {dev blkno : Dev} {c : Call} {t : BioSys π β} (hset : s.Settled dev blkno)
    (ha : LeavesAlone dev blkno s (.call p c)) (ht : s.toBioSys.step (.call p c) = some t) :
    (s.observe (.call p c) t).Settled dev blkno := by
  obtain ⟨hd, hb, hdelwri, k, hpc, hk⟩ := BioSys.call_moves ht
  intro x hx hdev hblk
  change t.b_dev x = dev at hdev
  change t.b_blkno x = blkno at hblk
  change (t.b_flags x).b_delwri = false ∧ ∀ r, ¬(t.pc r).writes x ∧ ¬(t.pc r).awaits x
  rw [hd] at hdev
  rw [hb] at hblk
  obtain ⟨hnot, hnone⟩ := hset x hx hdev hblk
  have hother : c.writes ≠ some x := fun hw => ha x hw ⟨hdev, hblk⟩
  rw [hpc]
  refine ⟨?_, fun r => ?_⟩
  · by_contra hd
    rw [Bool.not_eq_false] at hd
    rcases hdelwri x hd with hd | hw
    · rw [hnot] at hd
      cases hd
    · exact hother hw
  · by_cases hrp : r = p
    · rw [hrp, update_self]
      exact ⟨fun hw => hother ((hk x).1 hw), (hk x).2⟩
    · rw [update_of_ne hrp]
      exact hnone r

/-- A piece of code starts no write of the block. -/
theorem Settled.piece {dev blkno : Dev} {t : BioSys π β} (hset : s.Settled dev blkno)
    (h : s.Inv used) (ht : s.toBioSys.step (.run p) = some t) :
    (s.observe (.run p) t).Settled dev blkno := by
  obtain ⟨⟨ring, la, q, holder, hat⟩, -⟩ := h
  obtain ⟨hrun, ht⟩ := Option.ite_none_right_eq_some.mp ht
  obtain ⟨k, hpc, hmoves⟩ := BioSys.runPiece_moves hat ht
  have hparked := BioSys.others_parked hat (hrun.elim Or.inr fun hp => Or.inl hp.1) (p := p)
  intro x hx hdev hblk
  change t.b_dev x = dev at hdev
  change t.b_blkno x = blkno at hblk
  change (t.b_flags x).b_delwri = false ∧ ∀ r, ¬(t.pc r).writes x ∧ ¬(t.pc r).awaits x
  rw [hpc]
  -- the buffer keeps its block, or it was given to this one without a delayed write
  rcases hmoves x hx with ⟨hd, hb, hdel, hw, haw⟩ | ⟨hmem, -, hnew, hw, haw⟩
  · rw [hd] at hdev
    rw [hb] at hblk
    obtain ⟨hnot, hnone⟩ := hset x hx hdev hblk
    refine ⟨?_, fun r => ?_⟩
    · by_contra hd
      rw [Bool.not_eq_false] at hd
      rw [hdel hd] at hnot
      cases hnot
    · by_cases hrp : r = p
      · rw [hrp, update_self]
        refine ⟨fun hx => ?_, fun hx => (haw hx).elim (hnone p).1 (hnone p).2⟩
        rw [hw hx] at hnot
        cases hnot
      · rw [update_of_ne hrp]
        exact hnone r
  · refine ⟨hnew, fun r => ?_⟩
    by_cases hrp : r = p
    · rw [hrp, update_self]
      exact ⟨hw, haw⟩
    · rw [update_of_ne hrp]
      refine ⟨(hparked r hrp).not_writes x, fun hr => ?_⟩
      have hbp := ((hat.procs p).owns.own x).mpr (Or.inr hmem)
      exact BioSys.hand_ne hat hrp hbp hr.mem_hand rfl

omit [DecidableEq π] in
/-- The end of a transfer delays nothing and starts the next one of the queue only. -/
theorem Settled.rkintr {dev blkno : Dev} (hset : s.Settled dev blkno) (h : s.Inv used) :
    (s.observe .intr { s.toBioSys with toBio := s.toBio.rkintr }).Settled dev blkno := by
  obtain ⟨⟨ring, la, q, holder, hat⟩, -⟩ := h
  by_cases hact : s.d_active = 0
  · have hnothing : s.rkintr = s.toBio := by rw [Bio.rkintr, if_pos hact]
    simp only [hnothing]
    exact hset
  · have hbuf := ((hat.cached.bufs _).queue (BioSys.first_mem hat hact)).1
    intro x hx hdev hblk
    change s.rkintr.b_dev x = dev at hdev
    change s.rkintr.b_blkno x = blkno at hblk
    rw [Bio.rkintr_b_dev (BioSys.no_error hat hbuf)] at hdev
    rw [Bio.rkintr_b_blkno] at hblk
    obtain ⟨hnot, hnone⟩ := hset x hx hdev hblk
    refine ⟨?_, hnone⟩
    change (s.rkintr.b_flags x).b_delwri = false
    rw [rkintr_delwri hbuf.ne_bfreelist]
    exact hnot

/-- A block that is settled stays so as long as it is left alone. -/
theorem Settled.step {dev blkno : Dev} {a : BioAct π β} (hset : s.Settled dev blkno) (h : s.Inv used)
    (ha : LeavesAlone dev blkno s a) (hs : s.step a = some s') : s'.Settled dev blkno := by
  obtain ⟨t, ht, rfl⟩ := Option.map_eq_some_iff.mp hs
  cases a with
  | call p c => exact hset.enter ha ht
  | run p => exact hset.piece h ht
  | modify p bp val =>
    simp only [BioSys.step] at ht
    split at ht
    case h_2 => cases ht
    obtain ⟨-, ht⟩ := Option.ite_none_right_eq_some.mp ht
    obtain rfl := Option.some.inj ht
    exact hset
  | intr =>
    obtain rfl := Option.some.inj ht
    exact hset.rkintr h

/-- When `bflush` has found nothing more to write, a block is settled unless a process has its
buffer. -/
theorem Inv.settled_bflush {dev blkno : Dev} (h : s.Inv used) (hpc : s.pc p = .bflush NODEV)
    (hs : s.step (.run p) = some s') (hret : s'.pc p = .user)
    (hfree : ∀ x : Ptr, x.IsBuf → s'.b_dev x = dev → s'.b_blkno x = blkno →
      (s'.b_flags x).b_busy = true → (s'.b_flags x).b_async = true) : s'.Settled dev blkno := by
  obtain ⟨⟨ring, la, q, holder, hat⟩, hc⟩ := h
  obtain ⟨t, ht, rfl⟩ := Option.map_eq_some_iff.mp hs
  obtain ⟨hrun, ht⟩ := Option.ite_none_right_eq_some.mp ht
  have hparked := BioSys.others_parked hat (hrun.elim Or.inr fun hp => Or.inl hp.1) (p := p)
  simp only [BioSys.runPiece, hpc] at ht
  obtain ⟨found, hfound, rfl⟩ := Option.map_eq_some_iff.mp ht
  cases found with
  | some bp =>
    change update s.pc p _ p = _ at hret
    rw [update_self] at hret
    cases hret
  | none =>
    rw [hat.cached.avail.ringFind_eq hat.cached.length_avail_le, Option.some.injEq,
      List.find?_eq_none] at hfound
    intro x hx hdev hblk
    have hasync := hfree x hx hdev hblk
    change (s.b_flags x).b_busy = true → (s.b_flags x).b_async = true at hasync
    -- nobody has the buffer in hand
    have hhand : ∀ r, x ∉ (s.pc r).hand := by
      intro r hr
      have hown := ((hat.procs r).owns.own x).mpr (Or.inr hr)
      have hbusy := hat.cached.busy_of_holder (b := x) (by simp [hown])
      have hcalm : x ∈ (s.pc r).calm := by
        by_cases hrp : r = p
        · rw [hrp, hpc] at hr
          cases hr
        · have hpark := hparked r hrp
          generalize s.pc r = k at hr hpark
          cases k <;> first | exact hr | exact hpark.elim
      have hcalm' := (hat.procs r).owns.calm x (Or.inr hcalm)
      rw [hasync hbusy] at hcalm'
      cases hcalm'
    refine ⟨?_, fun r => ?_⟩
    · change (s.b_flags x).b_delwri = false
      by_contra hd
      rw [Bool.not_eq_false] at hd
      by_cases hbusy : (s.b_flags x).b_busy = true
      · cases hholder : holder x with
        | avail =>
          have hnot := (hat.cached.bufs x).holder.mp hholder hx
          rw [hbusy] at hnot
          cases hnot
        | io =>
          have hdone := ((hat.cached.bufs x).queue (hat.io x hholder)).2.2.1
          rw [hc.coherent.delwri x hx hd] at hdone
          cases hdone
        | proc r =>
          rcases ((hat.procs r).owns.own x).mp hholder with hheld | hr
          · have hcalm := (hat.procs r).owns.calm x (Or.inl hheld)
            rw [hasync hbusy] at hcalm
            cases hcalm
          · exact hhand r hr
      · rw [Bool.not_eq_true] at hbusy
        have hmem := (hat.cached.bufs x).avail.mpr ⟨hx, hbusy⟩
        exact hfound x hmem (by simp [hd])
    · change ¬(update s.pc p .user r).writes x ∧ ¬(update s.pc p .user r).awaits x
      by_cases hrp : r = p
      · rw [hrp, update_self]
        exact ⟨not_false, not_false⟩
      · rw [update_of_ne hrp]
        exact ⟨(hparked r hrp).not_writes x, fun hr => hhand r hr.mem_hand⟩

omit [DecidableEq π] in
/-- What is settled is on the disk when the disk is idle. -/
theorem Inv.disk_of_settled {dev blkno : Dev} (h : s.Inv used) (hset : s.Settled dev blkno)
    (hpos : dev.slt 0 = false) (hused : used dev blkno) (hidle : s.d_active = 0) :
    s.disk (Bio.rkSector dev blkno) = s.last dev blkno := by
  obtain ⟨⟨ring, la, q, holder, hat⟩, hc⟩ := h
  -- an idle drive has an empty queue
  have hempty := hat.active.mp hidle
  rcases hc.coherent.disk dev blkno hpos hused with hdisk | ⟨x, hx, hdev, hblk, hpend⟩
  · exact hdisk
  · exfalso
    -- a buffer still to be written would hold the block, against `Settled`
    obtain ⟨hnot, hnone⟩ := hset x hx hdev hblk
    -- each way to be pending
    rcases hpend with hd | ⟨r, hr⟩ | ⟨-, -, ha | ⟨r, hr⟩⟩
    · rw [hnot] at hd
      cases hd
    · exact (hnone r).1 hr
    · -- an asynchronous transfer would be in the queue
      cases hholder : holder x with
      | avail =>
        have hfree := (hat.cached.bufs x).holder.mp hholder hx
        rw [(hat.cached.bufs x).calm hx hfree] at ha
        cases ha
      | io =>
        have hmem := hat.io x hholder
        rw [hempty] at hmem
        cases hmem
      | proc r =>
        -- a process that holds an asynchronous buffer is about to write it
        rcases ((hat.procs r).owns.own x).mp hholder with hheld | hr
        · rw [(hat.procs r).owns.calm x (Or.inl hheld)] at ha
          cases ha
        · by_cases hcalm : x ∈ (s.pc r).calm
          · rw [(hat.procs r).owns.calm x (Or.inr hcalm)] at ha
            cases ha
          · refine (hnone r).1 ?_
            generalize s.pc r = k at hr hcalm
            cases k with
            | bwrite y k =>
              rcases List.mem_cons.mp hr with rfl | hr
              · rfl
              · exact absurd hr hcalm
            | _ => exact absurd hr hcalm
    · exact (hnone r).2 hr

/-- A buffer with a delayed write keeps its block. -/
theorem Inv.keeps_block {a : BioAct π β} {x : Ptr} (h : s.Inv used) (hs : s.step a = some s')
    (hx : x.IsBuf) (hdelwri : (s.b_flags x).b_delwri = true) :
    s'.b_dev x = s.b_dev x ∧ s'.b_blkno x = s.b_blkno x := by
  obtain ⟨⟨ring, la, q, holder, hat⟩, hc⟩ := h
  obtain ⟨t, ht, rfl⟩ := Option.map_eq_some_iff.mp hs
  cases a with
  | call p c =>
    obtain ⟨hd, hb, -⟩ := BioSys.call_moves ht
    exact ⟨congrFun hd x, congrFun hb x⟩
  | run p =>
    obtain ⟨-, ht⟩ := Option.ite_none_right_eq_some.mp ht
    obtain ⟨k, -, hmoves⟩ := BioSys.runPiece_moves hat ht
    -- only `getblk` gives a buffer another block, and it does not take one with a delayed write
    rcases hmoves x hx with ⟨hd, hb, -⟩ | ⟨-, hnot, -⟩
    · exact ⟨hd, hb⟩
    · rw [hdelwri] at hnot
      cases hnot
  | modify p bp val =>
    simp only [BioSys.step] at ht
    split at ht
    case h_2 => cases ht
    obtain ⟨-, ht⟩ := Option.ite_none_right_eq_some.mp ht
    obtain rfl := Option.some.inj ht
    exact ⟨rfl, rfl⟩
  | intr =>
    obtain rfl := Option.some.inj ht
    -- an interrupt that nobody waits for does nothing
    by_cases hact : s.d_active = 0
    · have hnothing : s.rkintr = s.toBio := by rw [Bio.rkintr, if_pos hact]
      simp only [hnothing]
      exact ⟨rfl, rfl⟩
    · have hbuf := ((hat.cached.bufs _).queue (BioSys.first_mem hat hact)).1
      change s.rkintr.b_dev x = _ ∧ s.rkintr.b_blkno x = _
      rw [Bio.rkintr_b_dev (BioSys.no_error hat hbuf), Bio.rkintr_b_blkno]
      exact ⟨rfl, rfl⟩

/-! ## Runs -/

/-- For the blocks in use, the cache behaves as a disk on which every write is done at once. -/
structure Refines (used : Dev → Dev → Prop) (s : CacheSys π β) : Prop where
  /-- A read returns the buffer of its block with the latest contents, when nobody else has it. -/
  read : ∀ p bp dev blkno s', s.returns p = some (bp, dev, blkno) → dev.slt 0 = false →
    s.step (.run p) = some s' → bp ∈ s'.held p ∧ s'.b_dev bp = dev ∧ s'.b_blkno bp = blkno ∧
      s'.data bp = s'.last dev blkno ∧ s'.last = s.last ∧
      ∀ r, r ≠ p → bp ∉ (s'.pc r).hand ∧ bp ∉ s'.held r
  /-- The latest contents of a block are on the disk, or on their way there. -/
  found : ∀ dev blkno : Dev, dev.slt 0 = false → used dev blkno →
    s.disk (Bio.rkSector dev blkno) = s.last dev blkno ∨
      ∃ x : Ptr, x.IsBuf ∧ s.b_dev x = dev ∧ s.b_blkno x = blkno ∧ pending s.toBio s.pc x ∧
        (s.dirty x = false → s.data x = s.last dev blkno)
  /-- A buffer with a delayed write is not reassigned. -/
  kept : ∀ (a : BioAct π β) s' (x : Ptr), s.step a = some s' → x.IsBuf →
    (s.b_flags x).b_delwri = true → s'.b_dev x = s.b_dev x ∧ s'.b_blkno x = s.b_blkno x
  /-- After `bflush(NODEV)`, when the queue is empty, the disk has the contents of the blocks whose
  buffers no process had, and which have not been written since. -/
  flushed : ∀ p s₁ s₂ (dev blkno : Dev), s.pc p = .bflush NODEV → s.step (.run p) = some s₁ →
    s₁.pc p = .user →
    (∀ x : Ptr, x.IsBuf → s₁.b_dev x = dev → s₁.b_blkno x = blkno →
      (s₁.b_flags x).b_busy = true → (s₁.b_flags x).b_async = true) →
    Reachable step (fun s a => s.Ok used a ∧ LeavesAlone dev blkno s a) s₁ s₂ →
    s₂.d_active = 0 → dev.slt 0 = false → used dev blkno →
    s₂.disk (Bio.rkSector dev blkno) = s₂.last dev blkno

/-- The cache does what the blocks of an array do. -/
theorem Inv.refines (h : s.Inv used) (hapart : SectorsApart used) : s.Refines used where
  read _ _ _ _ _ hret hpos hs := h.read hret hpos hs
  found dev blkno hpos hused := by
    rcases h.2.coherent.disk dev blkno hpos hused with hdisk | ⟨x, hx, hdev, hblk, hpend⟩
    · exact Or.inl hdisk
    · refine Or.inr ⟨x, hx, hdev, hblk, hpend, fun hclean => ?_⟩
      have hval := h.2.coherent.valid x hx (hdev ▸ hpos) hclean (Or.inr hpend)
      rw [hdev, hblk] at hval
      exact hval
  kept _ _ _ hs hx hdelwri := h.keeps_block hs hx hdelwri
  flushed p s₁ s₂ dev blkno hpc hs hret hfree hrun hidle hpos hused := by
    have hok : s.Ok used (.run p) := ⟨trivial, nofun⟩
    have hstart : s₁.Inv used ∧ s₁.Settled dev blkno :=
      ⟨h.step hapart hok hs, h.settled_bflush hpc hs hret hfree⟩
    have hend := hrun.invariant (P := fun t => t.Inv used ∧ t.Settled dev blkno) hstart
      fun t a t' ht ha hstep => ⟨ht.1.step hapart ha.1 hstep, ht.2.step ht.1 ha.2 hstep⟩
    exact hend.1.disk_of_settled hend.2 hpos hused hidle

/-- In every run without I/O errors, in which no two of the blocks that are asked for have the same
sector and buffers that have been changed are released with a write, the cache behaves as a disk. -/
theorem refines_of_reachable {zero : β} {disk : BitVec 16 → β} (hapart : SectorsApart used)
    (h : Reachable step (Ok used) (boot zero disk) s) : s.Refines used :=
  (h.invariant (Inv.boot zero disk) fun _ _ _ hs ha hstep => hs.step hapart ha hstep).refines hapart

/-- A process changes block 5 with a delayed write, and reads it again. -/
def writeAndRead : List (BioAct Unit Bool) :=
  [.call () (.bread 0 5)] ++ List.replicate 6 (.run ()) ++ [.intr, .run (),
    .modify () (.buf 0) true, .call () (.bdwrite (.buf 0)), .run (), .call () (.bread 0 5)] ++
    List.replicate 3 (.run ())

/-- A check for such runs. -/
def checkOk (check : Dev → Dev → Bool) (_ : CacheSys π β) : BioAct π β → Bool
  | .call _ (.bread dev blkno) => !Bio.rkRejects dev blkno && check dev blkno
  | .call _ (.bwrite _) | .call _ (.bdwrite _) => true
  | .call _ _ => false
  | _ => true

omit [DecidableEq π] in
/-- The condition of a step can be checked. -/
theorem ok_of_checkOk {check : Dev → Dev → Bool}
    (hused : ∀ dev blkno, check dev blkno = true → used dev blkno) (s : CacheSys π β)
    (a : BioAct π β) (h : checkOk check s a = true) : s.Ok used a := by
  cases a with
  | call p c =>
    cases c with
    | bread dev blkno =>
      have hok : Bio.rkRejects dev blkno = false ∧ check dev blkno = true := by
        simpa [checkOk] using h
      exact ⟨fun _ _ => ⟨hok.1, hused dev blkno hok.2⟩, nofun⟩
    | bwrite bp | bdwrite bp => exact ⟨fun _ => trivial, nofun⟩
    | _ => exact Bool.noConfusion h
  | _ => exact ⟨trivial, nofun⟩

/-- One of the drives that are not rows of several takes the block, and its number is not negative. -/
def OnDrive (dev blkno : Dev) : Prop :=
  dev.toNat ≤ 7 ∧ Bio.rkRejects dev blkno = false ∧ 0 ≤ blkno.toInt

instance (dev blkno : Dev) : Decidable (OnDrive dev blkno) :=
  inferInstanceAs (Decidable (_ ∧ _ ∧ _))

/-- Such a block is on the drive. -/
theorem OnDrive.lt {dev blkno : Dev} (h : OnDrive dev blkno) : blkno.toNat < NRKBLK := by
  obtain ⟨hdev, htaken, hblk⟩ := h
  obtain ⟨m, hm, rfl⟩ : ∃ m : BitVec 8, m.toNat ≤ 7 ∧ dev = Bio.rkdev m :=
    ⟨BitVec.ofNat 8 dev.toNat, by rw [BitVec.toNat_ofNat]; omega,
      BitVec.eq_of_toNat_eq (by simp [Bio.rkdev]; omega)⟩
  have hlt := ((Bio.on_drive_iff htaken).mpr hblk).2
  rw [Bio.rkSize, NRKBLK] at hlt
  rw [NRKBLK]
  rw [BitVec.toInt_eq_toNat_cond] at hblk hlt
  split at hblk <;> omega

/-- Such blocks have sectors of their own. -/
theorem sectorsApart_onDrive : SectorsApart OnDrive := by
  rintro dev blkno dev' blkno' h h' hsector
  have hdev := h.1
  have hdev' := h'.1
  have hblk := h.lt
  have hblk' := h'.lt
  have hminor : ∀ d : Dev, d.toNat ≤ 7 → (d &&& 0xff).toNat = d.toNat := by
    intro d hd
    rw [BitVec.toNat_and, show (0xff : Dev).toNat = 2 ^ 8 - 1 from rfl, Nat.and_two_pow_sub_one_eq_mod]
    exact Nat.mod_eq_of_lt (by omega)
  have hnat : blkno.toNat + 4872 * dev.toNat = blkno'.toNat + 4872 * dev'.toNat := by
    have h := congrArg BitVec.toNat hsector
    simp only [Bio.rkSector, BitVec.toNat_add, BitVec.toNat_mul, BitVec.toNat_ofNat, hminor _ hdev,
      hminor _ hdev'] at h
    unfold NRKBLK at hblk hblk' h
    omega
  unfold NRKBLK at hblk hblk'
  constructor <;> apply BitVec.eq_of_toNat_eq <;> omega

/-- The second read is about to return what has been written, which the disk does not have yet. -/
theorem refines_of_reachable_writeAndRead : ∃ s : CacheSys Unit Bool,
    s.Refines OnDrive ∧ s.returns () = some (.buf 0, 0, 5) ∧
      s.data (.buf 0) = true ∧ s.last 0 5 = true ∧ s.disk 5 = false := by
  have hrun : (checkedSteps step (checkOk fun dev blkno => OnDrive dev blkno) writeAndRead
      (boot false fun _ => false)).any
      (fun s : CacheSys Unit Bool => s.returns () = some (.buf 0, 0, 5) ∧
        s.data (.buf 0) = true ∧ s.last 0 5 = true ∧ s.disk 5 = false) = true := by
    decide +kernel
  obtain ⟨s, hs, hend⟩ := (Option.any_eq_true _ _).mp hrun
  exact ⟨s, refines_of_reachable sectorsApart_onDrive
    (Reachable.refl.of_checkedSteps (ok_of_checkOk fun _ _ => of_decide_eq_true) hs),
    of_decide_eq_true hend⟩

/-- A process writes block -4872 of drive 1, and reads block 0 of drive 0. -/
def writeAndReadOther : List (BioAct Unit Bool) :=
  [.call () (.bread 1 (-4872))] ++ List.replicate 6 (.run ()) ++ [.intr, .run (),
    .modify () (.buf 0) true, .call () (.bwrite (.buf 0)), .run (), .intr, .run (), .run (),
    .call () (.bread 0 0)] ++ List.replicate 6 (.run ()) ++ [.intr]

/-- `rkstrategy` takes negative block numbers, and sends this one to sector 0. The read is about to
return what has been written to the other block. -/
theorem not_refines : ∃ s : CacheSys Unit Bool,
    Reachable step (Ok fun _ _ => True) (boot false fun _ => false) s ∧
      ¬s.Refines fun _ _ => True := by
  have hrun : (checkedSteps step (checkOk fun _ _ => true) writeAndReadOther
      (boot false fun _ => false)).any
      (fun s : CacheSys Unit Bool => s.returns () = some (.buf 1, 0, 0) ∧
        (s.step (.run ())).any fun s' => s'.data (.buf 1) = true ∧ s'.last 0 0 = false) = true := by
    decide +kernel
  obtain ⟨s, hs, hend⟩ := (Option.any_eq_true _ _).mp hrun
  obtain ⟨hret, hnext⟩ := of_decide_eq_true hend
  obtain ⟨s', hs', hdata⟩ := (Option.any_eq_true _ _).mp hnext
  obtain ⟨hdata, hlast⟩ := of_decide_eq_true hdata
  refine ⟨s, Reachable.refl.of_checkedSteps (ok_of_checkOk fun _ _ _ => trivial) hs, fun h => ?_⟩
  have hread := (h.read () _ _ _ s' hret (by decide) hs').2.2.2.1
  rw [hdata, hlast] at hread
  cases hread

end CacheSys

end UnixV6
