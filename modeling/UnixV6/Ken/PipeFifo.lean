import Mathlib
import UnixV6.Ken.Pipe
import UnixV6.Lib.Run

/-!
# A pipe is a lossless FIFO

The bytes that readers have been given, followed by the bytes between `f_offset` and `i_size1`, are
all the bytes that writers have appended. A step that works on the file has the pipe to itself
(`Alone`): it takes its process out of the invariant, changes the pipe, and puts the process back
at its next place.
-/

open Function

namespace UnixV6

namespace PipePc

variable {β : Type}

/-- The bytes of the current write call that are in the pipe. -/
def current : PipePc β → List β
  | .writePlock buf done => buf.take done
  | .writeSleep buf done => buf.take done
  | .writei buf done _ _ => buf.take done
  | _ => []

/-- The process is in the loop of `writei`. -/
def writing : PipePc β → Prop
  | .writei _ _ _ _ => True
  | _ => False

/-- The process is in the loop of `readi` or `writei`. -/
def inside : PipePc β → Prop
  | .readi _ _ _ => True
  | .writei _ _ _ _ => True
  | _ => False

/-- The process waits for data. -/
def starved : PipePc β → Prop
  | .readSleep _ => True
  | _ => False

/-- The process waits for space. -/
def blocked : PipePc β → Prop
  | .writeSleep _ _ => True
  | _ => False

theorem writing.inside {k : PipePc β} (h : k.writing) : k.inside := by
  cases k <;> trivial

end PipePc

namespace PipeSys

variable {π β : Type} [DecidableEq π] {s s' : PipeSys π β} {p q : π} {k : PipePc β}
  {cur buf : List β} {count : ℕ}

/-- What a place asks of the pipe. -/
def Fits (s : PipeSys π β) : PipePc β → Prop
  | .user => True
  | .readPlock _ => True
  | .readSleep _ => s.iread = true
  | .readi count off got =>
      s.ilock = true ∧ s.f_offset ≤ off ∧ off < s.i_size1 ∧ got = slice s.data s.f_offset off ∧
        got.length < count
  | .writePlock buf done => done ≤ buf.length
  | .writeSleep buf done => done ≤ buf.length ∧ s.iwrite = true ∧ s.i_size1 = PIPSIZ
  | .writei buf done off count =>
      s.ilock = true ∧ off = s.i_size1 ∧ done + count ≤ buf.length ∧ off + count ≤ PIPSIZ ∧
        0 < count

/-- The bytes that `p` has appended, in order. -/
def appendedBy (s : PipeSys π β) (p : π) : List β :=
  (s.appended.filter fun x => x.1 = p).map Prod.snd

/-- The bytes of the finished write calls of `p` that went into the pipe, in order. -/
def writtenBy (s : PipeSys π β) (p : π) : List β :=
  ((s.writes p).map fun w => w.buf.take w.done).flatten

/-- What the calls have done so far, and what is in the pipe. -/
structure Stored (s : PipeSys π β) : Prop where
  fifo : s.appended.map Prod.snd =
    (s.reads.map Prod.snd).flatten ++ slice s.data s.f_offset s.i_size1
  le : s.f_offset ≤ s.i_size1
  cap : s.i_size1 ≤ PIPSIZ
  served : ∀ r ∈ s.reads, r.2.length ≤ r.1 ∧ (r.1 ≠ 0 → r.2 = [] → s.i_count < 2)
  whole : ∀ p, ∀ w ∈ s.writes p, w.done ≤ w.buf.length ∧ (w.ok = true → w.done = w.buf.length)

/-- What holds of a pipe at every moment. -/
structure Inv (s : PipeSys π β) : Prop where
  stored : s.Stored
  order : ∀ p, s.appendedBy p = s.writtenBy p ++ (s.pc p).current
  fits : ∀ p, s.Fits (s.pc p)
  /-- One process at a time is in `readi` or `writei`. -/
  alone : ∀ p q, (s.pc p).inside → (s.pc q).inside → p = q
  /-- A reader that waits for data has seen it all, or a writer is about to wake it. -/
  fed : ∀ p, (s.pc p).starved → s.f_offset = s.i_size1 ∨ ∃ q, (s.pc q).writing

/-- What holds without the process `p`, when no other is in `readi` or `writei`. -/
structure Alone (s : PipeSys π β) (p : π) (cur : List β) : Prop where
  stored : s.Stored
  order_self : s.appendedBy p = s.writtenBy p ++ cur
  order : ∀ q, q ≠ p → s.appendedBy q = s.writtenBy q ++ (s.pc q).current
  fits : ∀ q, q ≠ p → s.Fits (s.pc q)
  idle : ∀ q, q ≠ p → ¬(s.pc q).inside

/-- The other readers that wait for data have seen it all. -/
def Fed (s : PipeSys π β) (p : π) : Prop :=
  ∀ q, q ≠ p → (s.pc q).starved → s.f_offset = s.i_size1

/-! ## Taking a process out and putting it back -/

theorem Inv.ilock_of_inside (h : s.Inv) (hp : (s.pc p).inside) : s.ilock = true := by
  have hfits := h.fits p
  cases hk : s.pc p with
  | readi count off got =>
    rw [hk] at hfits
    exact hfits.1
  | writei buf done off count =>
    rw [hk] at hfits
    exact hfits.1
  | _ =>
    rw [hk] at hp
    exact hp.elim

/-- A process that finds the pipe unlocked, or is inside, has it to itself. -/
theorem Inv.takeOut (h : s.Inv) (p : π) (hp : s.ilock = false ∨ (s.pc p).inside) :
    s.Alone p (s.pc p).current where
  stored := h.stored
  order_self := h.order p
  order q _ := h.order q
  fits q _ := h.fits q
  idle q hqp hq := by
    rcases hp with hp | hp
    · have hlock := h.ilock_of_inside hq
      rw [hp] at hlock
      exact Bool.noConfusion hlock
    · exact hqp (h.alone q p hq hp)

/-- If nobody else is inside, the readers that wait have seen all data. -/
theorem Inv.fed_of (h : s.Inv) (hp : s.ilock = false ∨ (s.pc p).inside)
    (hw : ¬(s.pc p).writing) : s.Fed p := by
  intro q hqp hq
  rcases h.fed q hq with hall | ⟨r, hr⟩
  · exact hall
  · by_cases hrp : r = p
    · subst hrp
      exact absurd hr hw
    · exact absurd hr.inside ((h.takeOut p hp).idle r hrp)

@[simp] theorem goto_pc_self : (s.goto p k).pc p = k := update_self ..

theorem goto_pc_of_ne (hq : q ≠ p) : (s.goto p k).pc q = s.pc q := update_of_ne hq ..

/-- The process goes back to a place that fits. -/
theorem Alone.goto (h : s.Alone p cur) (hcur : k.current = cur) (hk : s.Fits k)
    (hfed : (∀ q, q ≠ p → (s.pc q).starved → s.f_offset = s.i_size1 ∨ k.writing))
    (hstarved : k.starved → s.f_offset = s.i_size1) : (s.goto p k).Inv where
  stored := ⟨h.stored.fifo, h.stored.le, h.stored.cap, h.stored.served, h.stored.whole⟩
  -- the write in progress is `p`'s own, for the others nothing has changed
  order q := by
    by_cases hqp : q = p
    · subst hqp
      rw [goto_pc_self, hcur]
      exact h.order_self
    · rw [goto_pc_of_ne hqp]
      exact h.order q hqp
  fits q := by
    by_cases hqp : q = p
    · subst hqp
      rw [goto_pc_self]
      cases k <;> exact hk
    · rw [goto_pc_of_ne hqp]
      have hfits := h.fits q hqp
      cases hq : s.pc q <;> rw [hq] at hfits <;> exact hfits
  -- nobody but `p` is inside
  alone q r hq hr := by
    by_cases hqp : q = p
    · by_cases hrp : r = p
      · rw [hqp, hrp]
      · rw [goto_pc_of_ne hrp] at hr
        exact absurd hr (h.idle r hrp)
    · rw [goto_pc_of_ne hqp] at hq
      exact absurd hq (h.idle q hqp)
  -- who waits for data waits rightly: the pipe is empty, or `p` is writing
  fed q hq := by
    by_cases hqp : q = p
    · subst hqp
      rw [goto_pc_self] at hq
      exact Or.inl (hstarved hq)
    · rw [goto_pc_of_ne hqp] at hq
      rcases hfed q hqp hq with hall | hw
      · exact Or.inl hall
      · refine Or.inr ⟨p, ?_⟩
        rw [goto_pc_self]
        exact hw

/-- A change that touches neither the contents nor the calls and clears no flag. -/
theorem Inv.congr (h : s.Inv) (hs : s'.data = s.data ∧ s'.f_offset = s.f_offset ∧
      s'.i_size1 = s.i_size1 ∧ s'.pc = s.pc ∧ s'.appended = s.appended ∧ s'.reads = s.reads ∧
      s'.writes = s.writes)
    (hcount : s'.i_count ≤ s.i_count)
    (hread : ∀ q, (s.pc q).starved → s.iread = true → s'.iread = true)
    (hwrite : ∀ q, (s.pc q).blocked → s.iwrite = true → s'.iwrite = true) (hlock : s.ilock = true → s'.ilock = true) :
    s'.Inv := by
  obtain ⟨hdata, hoff, hsize, hpc, happ, hreads, hwrites⟩ := hs
  refine ⟨⟨?_, ?_, ?_, ?_, ?_⟩, ?_, ?_, ?_, ?_⟩
  · rw [happ, hreads, hdata, hoff, hsize]
    exact h.stored.fifo
  · rw [hoff, hsize]
    exact h.stored.le
  · rw [hsize]
    exact h.stored.cap
  · intro r hr
    rw [hreads] at hr
    obtain ⟨hlen, hclosed⟩ := h.stored.served r hr
    exact ⟨hlen, fun hne hnil => lt_of_le_of_lt hcount (hclosed hne hnil)⟩
  · rw [hwrites]
    exact h.stored.whole
  · unfold appendedBy writtenBy
    rw [happ, hwrites, hpc]
    exact h.order
  · intro p
    have hfits := h.fits p
    rw [hpc]
    -- by the piece; only the sleepers read the flags
    cases hp : s.pc p <;> rw [hp] at hfits <;> simp only [Fits, hdata, hoff, hsize] at hfits ⊢
    -- what each of them needs from the flags
    case readSleep => exact hread p (by rw [hp]; trivial) hfits
    case readi => exact ⟨hlock hfits.1, hfits.2⟩
    case writePlock => exact hfits
    case writeSleep => exact ⟨hfits.1, hwrite p (by rw [hp]; trivial) hfits.2.1, hfits.2.2⟩
    case writei => exact ⟨hlock hfits.1, hfits.2⟩
  · rw [hpc]
    exact h.alone
  · rw [hpc, hoff, hsize]
    exact h.fed

/-- A process goes on within the bounds of the pipe. -/
theorem Inv.goto_fits (h : s.Inv) (p : π) (hk : s.Fits k) (q : π) :
    s.Fits ((s.goto p k).pc q) := by
  by_cases hqp : q = p
  · subst hqp
    rw [goto_pc_self]
    exact hk
  · rw [goto_pc_of_ne hqp]
    exact h.fits q

/-- A process goes on outside, and at most one other is inside. -/
theorem Inv.goto_alone (h : s.Inv) (p : π) (hin : ¬k.inside) (q r : π)
    (hq : ((s.goto p k).pc q).inside) (hr : ((s.goto p k).pc r).inside) : q = r := by
  have hne : ∀ q, ((s.goto p k).pc q).inside → q ≠ p := by
    rintro q hq rfl
    rw [goto_pc_self] at hq
    exact hin hq
  have hqp := hne q hq
  have hrp := hne r hr
  rw [goto_pc_of_ne hqp] at hq
  rw [goto_pc_of_ne hrp] at hr
  exact h.alone q r hq hr

/-- A process goes on, and a reader starves only while the pipe is empty. -/
theorem Inv.goto_fed (h : s.Inv) (hp : ¬(s.pc p).inside)
    (hstarved : k.starved → s.f_offset = s.i_size1) (q : π)
    (hq : ((s.goto p k).pc q).starved) :
    s.f_offset = s.i_size1 ∨ ∃ r, ((s.goto p k).pc r).writing := by
  by_cases hqp : q = p
  · subst hqp
    rw [goto_pc_self] at hq
    exact Or.inl (hstarved hq)
  · rw [goto_pc_of_ne hqp] at hq
    rcases h.fed q hq with hall | ⟨r, hr⟩
    · exact Or.inl hall
    · refine Or.inr ⟨r, ?_⟩
      have hrp : r ≠ p := by
        rintro rfl
        exact hp hr.inside
      rw [goto_pc_of_ne hrp]
      exact hr

theorem Fits.of_goto {k' : PipePc β} (h : s.Fits k') : (s.goto p k).Fits k' := by
  cases k' <;> exact h

/-- A process outside `readi` and `writei` goes to another such place. -/
theorem Inv.goto_outside (h : s.Inv) (hp : ¬(s.pc p).inside) (hcur : k.current = (s.pc p).current)
    (hk : s.Fits k) (hin : ¬k.inside) (hstarved : k.starved → s.f_offset = s.i_size1) :
    (s.goto p k).Inv where
  stored := ⟨h.stored.fifo, h.stored.le, h.stored.cap, h.stored.served, h.stored.whole⟩
  order q := by
    by_cases hqp : q = p
    · subst hqp
      rw [goto_pc_self, hcur]
      exact h.order q
    · rw [goto_pc_of_ne hqp]
      exact h.order q
  fits q := (h.goto_fits p hk q).of_goto
  alone := h.goto_alone p hin
  fed := h.goto_fed hp hstarved

/-- What a process has written grows by what the pipe took. -/
theorem writtenBy_writeDone_self {done : ℕ} {ok : Bool} :
    (s.writeDone p buf done ok).writtenBy p = s.writtenBy p ++ buf.take done := by
  change List.flatten (List.map _ (update s.writes p _ p)) = _
  rw [update_self, List.map_append, List.flatten_append]
  simp [writtenBy]

/-- What the others have written stays. -/
theorem writtenBy_writeDone_of_ne {done : ℕ} {ok : Bool} (hq : q ≠ p) :
    (s.writeDone p buf done ok).writtenBy q = s.writtenBy q := by
  change List.flatten (List.map _ (update s.writes p _ q)) = _
  rw [update_of_ne hq]
  rfl

/-- A write call ends outside `writei`. -/
theorem Inv.writeDone {done : ℕ} {ok : Bool} (h : s.Inv) (hp : ¬(s.pc p).inside)
    (hcur : (s.pc p).current = buf.take done) (hdone : done ≤ buf.length)
    (hok : ok = true → done = buf.length) : (s.writeDone p buf done ok).Inv where
  -- the finished write goes on record
  stored := by
    refine ⟨h.stored.fifo, h.stored.le, h.stored.cap, h.stored.served, fun q w hw => ?_⟩
    change w ∈ update s.writes p _ q at hw
    by_cases hqp : q = p
    · subst hqp
      rw [update_self, List.mem_append, List.mem_singleton] at hw
      rcases hw with hw | rfl
      · exact h.stored.whole q w hw
      · exact ⟨hdone, hok⟩
    · rw [update_of_ne hqp] at hw
      exact h.stored.whole q w hw
  -- in the order: what was in progress is now written
  order q := by
    by_cases hqp : q = p
    · subst hqp
      rw [writtenBy_writeDone_self]
      change s.appendedBy q = _ ++ ((s.goto q .user).pc q).current
      rw [goto_pc_self, h.order q, hcur]
      exact (List.append_nil _).symm
    · rw [writtenBy_writeDone_of_ne hqp]
      change s.appendedBy q = _ ++ ((s.goto p .user).pc q).current
      rw [goto_pc_of_ne hqp]
      exact h.order q
  fits q := by
    have hfits := h.goto_fits (k := .user) p trivial q
    change (s.writeDone p buf done ok).Fits ((s.goto p .user).pc q)
    generalize (s.goto p .user).pc q = k at hfits
    cases k <;> exact hfits
  alone := h.goto_alone (k := .user) p not_false
  fed := h.goto_fed (k := .user) hp nofun

/-! ## Wakeups -/

section Wakeup

omit [DecidableEq π]

@[simp] theorem wakeReaders_current (s : PipeSys π β) (q : π) :
    (s.wakeReaders.pc q).current = (s.pc q).current := by
  simp only [wakeReaders]
  cases s.pc q <;> rfl

@[simp] theorem wakeWriters_current (s : PipeSys π β) (q : π) :
    (s.wakeWriters.pc q).current = (s.pc q).current := by
  simp only [wakeWriters]
  cases s.pc q <;> rfl

@[simp] theorem wakeReaders_inside (s : PipeSys π β) (q : π) :
    (s.wakeReaders.pc q).inside ↔ (s.pc q).inside := by
  simp only [wakeReaders]
  cases s.pc q <;> exact Iff.rfl

@[simp] theorem wakeWriters_inside (s : PipeSys π β) (q : π) :
    (s.wakeWriters.pc q).inside ↔ (s.pc q).inside := by
  simp only [wakeWriters]
  cases s.pc q <;> exact Iff.rfl

/-- Nobody waits for data after `wakeup(ip+2)`. -/
theorem not_starved_wakeReaders (s : PipeSys π β) (q : π) : ¬(s.wakeReaders.pc q).starved := by
  simp only [wakeReaders]
  cases s.pc q <;> exact not_false

/-- Nobody waits for space after `wakeup(ip+1)`. -/
theorem not_blocked_wakeWriters (s : PipeSys π β) (q : π) : ¬(s.wakeWriters.pc q).blocked := by
  simp only [wakeWriters]
  cases s.pc q <;> exact not_false

/-- Waking the readers wakes no writer. -/
theorem wakeReaders_blocked (s : PipeSys π β) (q : π) :
    (s.wakeReaders.pc q).blocked ↔ (s.pc q).blocked := by
  simp only [wakeReaders]
  cases s.pc q <;> exact Iff.rfl

/-- Waking the writers wakes no reader. -/
theorem wakeWriters_starved (s : PipeSys π β) (q : π) :
    (s.wakeWriters.pc q).starved ↔ (s.pc q).starved := by
  simp only [wakeWriters]
  cases s.pc q <;> exact Iff.rfl

/-- Waking the writers takes no lock. -/
theorem wakeWriters_writing (s : PipeSys π β) (q : π) :
    (s.wakeWriters.pc q).writing ↔ (s.pc q).writing := by
  simp only [wakeWriters]
  cases s.pc q <;> exact Iff.rfl

/-- A reader that wakes up is within the bounds. -/
theorem Fits.wakeReaders (h : s.Fits (s.pc q)) : s.wakeReaders.Fits (s.wakeReaders.pc q) := by
  unfold PipeSys.wakeReaders
  dsimp only
  cases hq : s.pc q <;> rw [hq] at h <;> first | exact h | trivial

/-- A writer that wakes up is within the bounds. -/
theorem Fits.wakeWriters (h : s.Fits (s.pc q)) : s.wakeWriters.Fits (s.wakeWriters.pc q) := by
  unfold PipeSys.wakeWriters
  dsimp only
  cases hq : s.pc q <;> rw [hq] at h <;> first | exact h | exact h.1

end Wakeup

theorem Inv.wakeReaders (h : s.Inv) : s.wakeReaders.Inv where
  stored := ⟨h.stored.fifo, h.stored.le, h.stored.cap, h.stored.served, h.stored.whole⟩
  order q := by
    rw [wakeReaders_current]
    exact h.order q
  fits q := (h.fits q).wakeReaders
  alone q r hq hr := h.alone q r ((wakeReaders_inside s q).mp hq) ((wakeReaders_inside s r).mp hr)
  fed q hq := absurd hq (not_starved_wakeReaders s q)

theorem Inv.wakeWriters (h : s.Inv) : s.wakeWriters.Inv where
  stored := ⟨h.stored.fifo, h.stored.le, h.stored.cap, h.stored.served, h.stored.whole⟩
  order q := by
    rw [wakeWriters_current]
    exact h.order q
  fits q := (h.fits q).wakeWriters
  alone q r hq hr := h.alone q r ((wakeWriters_inside s q).mp hq) ((wakeWriters_inside s r).mp hr)
  fed q hq := by
    rcases h.fed q ((wakeWriters_starved s q).mp hq) with hall | ⟨r, hr⟩
    · exact Or.inl hall
    · exact Or.inr ⟨r, (wakeWriters_writing s r).mpr hr⟩

/-- The wakeups of `closef`. -/
theorem Inv.unclog (h : s.Inv) : s.unclog.Inv := by
  refine h.wakeWriters.wakeReaders.congr ⟨rfl, rfl, rfl, rfl, rfl, rfl, rfl⟩ le_rfl ?_ ?_ ?_
  · intro q hq
    exact absurd hq (not_starved_wakeReaders _ q)
  · intro q hq
    rw [wakeReaders_blocked] at hq
    exact absurd hq (not_blocked_wakeWriters s q)
  · exact id

theorem Alone.wakeReaders (h : s.Alone p cur) : s.wakeReaders.Alone p cur where
  stored := ⟨h.stored.fifo, h.stored.le, h.stored.cap, h.stored.served, h.stored.whole⟩
  order_self := h.order_self
  order q hqp := by
    rw [wakeReaders_current]
    exact h.order q hqp
  fits q hqp := (h.fits q hqp).wakeReaders
  idle q hqp hq := h.idle q hqp ((wakeReaders_inside s q).mp hq)

theorem Alone.wakeWriters (h : s.Alone p cur) : s.wakeWriters.Alone p cur where
  stored := ⟨h.stored.fifo, h.stored.le, h.stored.cap, h.stored.served, h.stored.whole⟩
  order_self := h.order_self
  order q hqp := by
    rw [wakeWriters_current]
    exact h.order q hqp
  fits q hqp := (h.fits q hqp).wakeWriters
  idle q hqp hq := h.idle q hqp ((wakeWriters_inside s q).mp hq)

/-! ## Work on the file -/

omit [DecidableEq π] in
/-- A place outside `readi` and `writei` asks for the flags of the sleepers only. -/
theorem Fits.change (h : s.Fits k) (hk : ¬k.inside) (hread : k.starved → s'.iread = true)
    (hwrite : k.blocked → s'.iwrite = true ∧ s'.i_size1 = PIPSIZ) : s'.Fits k := by
  cases k with
  | user => trivial
  | readPlock count => trivial
  | readSleep count => exact hread trivial
  | writePlock buf done => exact h
  | writeSleep buf done => exact ⟨h.1, hwrite trivial⟩
  | readi count off got => exact absurd trivial hk
  | writei buf done off count => exact absurd trivial hk

/-- A change of the pipe by the process that has it to itself. -/
theorem Alone.change (h : s.Alone p cur) (hst : s'.Stored) (happ : s'.appended = s.appended)
    (hwrites : s'.writes = s.writes) (hpc : s'.pc = s.pc)
    (hread : ∀ q, q ≠ p → (s.pc q).starved → s'.iread = true)
    (hwrite : ∀ q, q ≠ p → (s.pc q).blocked → s'.iwrite = true ∧ s'.i_size1 = PIPSIZ) :
    s'.Alone p cur := by
  refine ⟨hst, ?_, fun q hqp => ?_, fun q hqp => ?_, fun q hqp => ?_⟩
  · unfold appendedBy writtenBy
    rw [happ, hwrites]
    exact h.order_self
  · unfold appendedBy writtenBy
    rw [happ, hwrites, hpc]
    exact h.order q hqp
  · rw [hpc]
    exact (h.fits q hqp).change (h.idle q hqp) (hread q hqp) (hwrite q hqp)
  · rw [hpc]
    exact h.idle q hqp

/-- A reader that starves has left its mark. -/
theorem Alone.iread_of_starved (h : s.Alone p cur) (hqp : q ≠ p) (hq : (s.pc q).starved) :
    s.iread = true := by
  have hfits := h.fits q hqp
  cases hk : s.pc q with
  | readSleep count =>
    rw [hk] at hfits
    exact hfits
  | _ =>
    rw [hk] at hq
    exact hq.elim

/-- A writer that is blocked has left its mark, and the pipe is full. -/
theorem Alone.full_of_blocked (h : s.Alone p cur) (hqp : q ≠ p) (hq : (s.pc q).blocked) :
    s.iwrite = true ∧ s.i_size1 = PIPSIZ := by
  have hfits := h.fits q hqp
  cases hk : s.pc q with
  | writeSleep buf done =>
    rw [hk] at hfits
    exact hfits.2
  | _ =>
    rw [hk] at hq
    exact hq.elim

/-- The lock changes hands. -/
theorem Alone.lock (h : s.Alone p cur) (locked want : Bool) :
    { s with ilock := locked, iwant := want }.Alone p cur :=
  h.change ⟨h.stored.fifo, h.stored.le, h.stored.cap, h.stored.served, h.stored.whole⟩ rfl rfl rfl
    (fun _ hqp hq => h.iread_of_starved hqp hq) (fun _ hqp hq => h.full_of_blocked hqp hq)

/-- A pipe that has been read out starts again at 0, and no writer sleeps for space. -/
theorem Alone.rewind (h : s.Alone p cur) (hout : s.f_offset = s.i_size1) :
    s.rewind.Alone p cur ∧ s.rewind.f_offset = s.rewind.i_size1 := by
  unfold PipeSys.rewind
  by_cases hzero : s.f_offset ≠ 0
  · rw [if_pos hzero]
    dsimp only
    have hst : { s with f_offset := 0, i_size1 := 0 }.Stored := by
      refine ⟨?_, le_rfl, Nat.zero_le _, h.stored.served, h.stored.whole⟩
      have hfifo := h.stored.fifo
      rw [hout, slice_self] at hfifo
      simpa using hfifo
    split
    · refine ⟨?_, rfl⟩
      refine Alone.change (s := s.wakeWriters) h.wakeWriters
        ⟨hst.fifo, hst.le, hst.cap, hst.served, hst.whole⟩ rfl rfl rfl ?_ ?_
      · intro q hqp hq
        rw [wakeWriters_starved] at hq
        exact h.iread_of_starved hqp hq
      · intro q _ hq
        exact absurd hq (not_blocked_wakeWriters s q)
    · rename_i hwrite
      refine ⟨h.change hst rfl rfl rfl (fun _ hqp hq => h.iread_of_starved hqp hq) ?_, rfl⟩
      intro q hqp hq
      exact absurd (h.full_of_blocked hqp hq).1 hwrite
  · rw [if_neg hzero]
    exact ⟨h, hout⟩

/-- The read call of `p` returns `got`, which lay between `f_offset` and `off`. -/
theorem Alone.readDone {off : ℕ} {got : List β} (h : s.Alone p []) (hlo : s.f_offset ≤ off)
    (hhi : off ≤ s.i_size1) (hgot : got = slice s.data s.f_offset off) (hlen : got.length ≤ count)
    (hserved : count ≠ 0 → got = [] → s.i_count < 2)
    (hfed : ∀ q, q ≠ p → (s.pc q).starved → off = s.i_size1) :
    ({ s with f_offset := off }.readDone p count got).Inv := by
  refine Alone.goto (s := { s with f_offset := off, reads := _ }) ?_ rfl trivial
    (fun q hqp hq => Or.inl (hfed q hqp hq)) nofun
  refine h.change ⟨?_, hhi, h.stored.cap, ?_, h.stored.whole⟩ rfl rfl rfl
    (fun _ hqp hq => h.iread_of_starved hqp hq) (fun _ hqp hq => h.full_of_blocked hqp hq)
  · have hfifo := h.stored.fifo
    rw [← slice_append s.data hlo hhi, ← hgot] at hfifo
    simpa using hfifo
  · intro r hr
    rw [List.mem_append, List.mem_singleton] at hr
    rcases hr with hr | rfl
    · exact h.stored.served r hr
    · exact ⟨hlen, hserved⟩

/-- The loop of `readi`, entered with `got` read from what lies before `off`. -/
theorem Alone.readiLoop {off : ℕ} {got : List β} (h : s.Alone p []) (hlock : s.ilock = true)
    (hfed : s.Fed p) (hne : s.f_offset ≠ s.i_size1) (hlo : s.f_offset ≤ off)
    (hhi : off ≤ s.i_size1) (hgot : got = slice s.data s.f_offset off) (hlen : got.length ≤ count) :
    (s.readiLoop p count off got).Inv := by
  -- nobody waits for data, since there is some
  have hnone : ∀ q, q ≠ p → ¬(s.pc q).starved := fun q hqp hq => hne (hfed q hqp hq)
  unfold PipeSys.readiLoop
  split
  · rename_i hend
    refine (h.lock false false).readDone hlo hhi hgot hlen ?_ fun q hqp hq => absurd hq (hnone q hqp)
    intro hcount hnil
    rw [hnil] at hgot hend
    have hlength := congrArg List.length hgot
    rw [length_slice, List.length_nil] at hlength
    rw [List.length_nil] at hend
    omega
  · rename_i hgo
    refine h.goto rfl ⟨hlock, hlo, by omega, hgot, by omega⟩ ?_ nofun
    exact fun q hqp hq => absurd hq (hnone q hqp)

/-- One turn of the loop of `readi`. -/
theorem Inv.readi {off : ℕ} {got : List β} (h : s.Inv) (hp : s.pc p = .readi count off got) :
    (s.readi p count off got).Inv := by
  have hfits := h.fits p
  rw [hp] at hfits
  obtain ⟨hlock, hlo, hhi, hgot, hlen⟩ := hfits
  have hin : s.ilock = false ∨ (s.pc p).inside := by
    rw [hp]
    exact Or.inr trivial
  have halone := h.takeOut p hin
  have hfed := h.fed_of hin (by rw [hp]; exact not_false)
  rw [hp] at halone
  unfold PipeSys.readi
  obtain ⟨n, hn⟩ : ∃ n, n = min (min (512 - off % 512) (count - got.length)) (s.i_size1 - off) :=
    ⟨_, rfl⟩
  dsimp only
  rw [← hn]
  refine halone.readiLoop hlock hfed (by omega) (by omega) (by omega) ?_ ?_
  · rw [hgot]
    exact slice_append s.data hlo (Nat.le_add_right off n)
  · rw [List.length_append, length_slice]
    omega

/-- `readp` from `loop` on. -/
theorem Inv.readp (h : s.Inv) (hp : ¬(s.pc p).inside) (hcur : (s.pc p).current = [])
    (hw : ¬(s.pc p).writing) : (s.readp p count).Inv := by
  unfold PipeSys.readp
  split
  · -- locked: to the queue in `plock`
    refine Inv.goto_outside (s := { s with iwant := true }) ?_ hp hcur.symm trivial not_false nofun
    exact h.congr ⟨rfl, rfl, rfl, rfl, rfl, rfl, rfl⟩ le_rfl (fun _ _ => id) (fun _ _ => id) id
  · rename_i hlock
    have hfree : s.ilock = false ∨ (s.pc p).inside := Or.inl (Bool.eq_false_of_not_eq_true hlock)
    have halone := h.takeOut p hfree
    have hfed := h.fed_of hfree hw
    rw [hcur] at halone
    split
    -- the pipe is empty: start over at its beginning
    · rename_i hout
      obtain ⟨hrewind, hout'⟩ := halone.rewind hout
      obtain ⟨t, ht⟩ : ∃ t, t = s.rewind := ⟨_, rfl⟩
      rw [← ht] at hrewind hout' ⊢
      dsimp only
      split
      -- with no writer left the read returns nothing, else it waits
      · rename_i hclosed
        refine Alone.readDone (hrewind.lock false false) le_rfl hout'.le
          (slice_self _ _).symm (Nat.zero_le _) (fun _ _ => hclosed) (fun _ _ _ => hout')
      · refine Alone.goto (s := { t.prele with iread := true }) ?_ rfl rfl
          (fun _ _ _ => Or.inl hout') (fun _ => hout')
        refine (hrewind.lock false false).change ?_ rfl rfl rfl (fun _ _ _ => rfl)
          (fun _ hqp hq => (hrewind.lock false false).full_of_blocked hqp hq)
        have hst := hrewind.stored
        exact ⟨hst.fifo, hst.le, hst.cap, hst.served, hst.whole⟩
    · rename_i hne
      -- there is data to read
      exact (halone.lock true s.iwant).readiLoop rfl hfed hne le_rfl h.stored.le
        (slice_self _ _).symm (Nat.zero_le _)

/-- `writep` from `loop` on. -/
theorem Inv.writep {done : ℕ} (h : s.Inv) (hp : ¬(s.pc p).inside)
    (hcur : (s.pc p).current = buf.take done) (hdone : done ≤ buf.length) :
    (s.writep p buf done).Inv := by
  unfold PipeSys.writep
  split
  · -- locked: wait for the lock
    refine Inv.goto_outside (s := { s with iwant := true }) ?_ hp hcur.symm hdone not_false nofun
    exact h.congr ⟨rfl, rfl, rfl, rfl, rfl, rfl, rfl⟩ le_rfl (fun _ _ => id) (fun _ _ => id) id
  · rename_i hlock
    have hprele : s.prele.Inv :=
      h.congr ⟨rfl, rfl, rfl, rfl, rfl, rfl, rfl⟩ le_rfl (fun _ _ => id) (fun _ _ => id)
        fun hl => absurd hl hlock
    split
    · -- all is written
      exact hprele.writeDone hp hcur hdone fun _ => by omega
    · rename_i hleft
      split
      · -- nobody can read any more
        exact hprele.writeDone hp hcur hdone nofun
      · split
        · -- the pipe is full: sleep
          rename_i hfull
          refine Inv.goto_outside ?_ hp hcur.symm ⟨hdone, rfl, hfull⟩ not_false nofun
          exact hprele.congr ⟨rfl, rfl, rfl, rfl, rfl, rfl, rfl⟩ le_rfl (fun _ _ => id)
            (fun _ _ _ => rfl) id
        · -- there is room, and the process goes inside
          rename_i hfull
          have halone := h.takeOut p (Or.inl (Bool.eq_false_of_not_eq_true hlock))
          have hcap := h.stored.cap
          refine Alone.goto (halone.lock true s.iwant) hcur.symm ?_ (fun _ _ _ => Or.inr trivial)
            nofun
          exact ⟨rfl, rfl, by omega, by omega, by omega⟩

omit [DecidableEq π] in
theorem map_snd_map_prod (p : π) (bs : List β) : (bs.map (p, ·)).map Prod.snd = bs := by
  simp [Function.comp_def]

/-- The state after the bytes `bs` of `p` have been put at the end of the file. -/
theorem Alone.append {bs : List β} (h : s.Alone p cur) (hne : bs ≠ [])
    (hcap : s.i_size1 + bs.length ≤ PIPSIZ) :
    { s with
      data := overwrite s.data s.i_size1 bs
      appended := s.appended ++ bs.map (p, ·)
      i_size1 := s.i_size1 + bs.length }.Alone p (cur ++ bs) := by
  have hpos := List.length_pos_of_ne_nil hne
  refine ⟨⟨?_, ?_, hcap, h.stored.served, h.stored.whole⟩, ?_, ?_, ?_, h.idle⟩
  · have hslice : slice (overwrite s.data s.i_size1 bs) s.f_offset (s.i_size1 + bs.length) =
        slice s.data s.f_offset s.i_size1 ++ bs := by
      rw [← slice_append _ h.stored.le (Nat.le_add_right _ _), slice_overwrite_of_le le_rfl,
        slice_overwrite_self]
    simp only
    rw [hslice, List.map_append, map_snd_map_prod, h.stored.fifo, List.append_assoc]
  · exact h.stored.le.trans (Nat.le_add_right _ _)
  · have hself := h.order_self
    unfold appendedBy writtenBy at hself ⊢
    simp only
    have hall : (bs.map (p, ·)).filter (fun x => x.1 = p) = bs.map (p, ·) := by
      rw [List.filter_eq_self]
      simp
    rw [List.filter_append, hall, List.map_append, map_snd_map_prod, hself, List.append_assoc]
  · intro q hqp
    have horder := h.order q hqp
    unfold appendedBy writtenBy at horder ⊢
    simp only
    have hnone : (bs.map (p, ·)).filter (fun x => x.1 = q) = [] := by
      rw [List.filter_eq_nil_iff]
      simp [Ne.symm hqp]
    rw [List.filter_append, hnone, List.append_nil, horder]
  · intro q hqp
    refine (h.fits q hqp).change (h.idle q hqp) (h.iread_of_starved hqp) fun hq => ?_
    -- nobody sleeps for space while there is some
    have hfull := (h.full_of_blocked hqp hq).2
    omega

/-- What `writep` does after `writei`. -/
theorem Alone.written {done : ℕ} (h : s.Alone p (buf.take done)) (hdone : done ≤ buf.length) :
    (s.written p buf done).Inv := by
  unfold PipeSys.written
  have hprele := h.lock false false
  dsimp only
  split
  · have hwake : ({ s.prele with iread := false }.wakeReaders).Alone p (buf.take done) := by
      refine Alone.change (s := s.prele.wakeReaders) (Alone.wakeReaders hprele) ?_ rfl rfl rfl ?_ ?_
      · exact ⟨h.stored.fifo, h.stored.le, h.stored.cap, h.stored.served, h.stored.whole⟩
      · intro q _ hq
        exact absurd hq (not_starved_wakeReaders _ q)
      · intro q hqp hq
        exact (Alone.wakeReaders hprele).full_of_blocked hqp hq
    refine Alone.goto hwake rfl hdone (fun q _ hq => ?_) nofun
    exact absurd hq (not_starved_wakeReaders _ q)
  · rename_i hread
    refine Alone.goto hprele rfl hdone (fun q hqp hq => ?_) nofun
    exact absurd (h.iread_of_starved hqp hq) hread

/-- One turn of the loop of `writei`. -/
theorem Inv.writei {done off : ℕ} (h : s.Inv) (hp : s.pc p = .writei buf done off count) :
    (s.writei p buf done off count).Inv := by
  -- the process has the lock
  have hfits := h.fits p
  rw [hp] at hfits
  obtain ⟨hlock, hoff, hleft, hcap, hpos⟩ := hfits
  have halone := h.takeOut p (by rw [hp]; exact Or.inr trivial)
  rw [hp] at halone
  unfold PipeSys.writei
  obtain ⟨n, hn⟩ : ∃ n, n = min (512 - off % 512) count := ⟨_, rfl⟩
  obtain ⟨bs, hbs⟩ : ∃ bs, bs = (buf.drop done).take n := ⟨_, rfl⟩
  dsimp only
  rw [← hn, ← hbs]
  have hlength : bs.length = n := by
    rw [hbs, List.length_take, List.length_drop]
    omega
  -- a pipe is written at its end
  have hgrown : (if s.i_size1 < off + n then off + n else s.i_size1) = s.i_size1 + bs.length := by
    rw [if_pos (by omega), hlength, hoff]
  have hne : bs ≠ [] := by
    rintro hnil
    rw [hnil, List.length_nil] at hlength
    omega
  -- the bytes that have gone in are a longer part of the buffer now
  have hcur : buf.take done ++ bs = buf.take (done + n) := by
    rw [hbs, List.take_add]
  rw [hgrown, hoff]
  have hnew := Alone.append halone hne (by omega)
  rw [PipePc.current, hcur] at hnew
  split
  · exact Alone.written hnew (by omega)
  · refine Alone.goto hnew rfl ⟨hlock, ?_, by omega, by omega, by omega⟩
      (fun _ _ _ => Or.inr trivial) nofun
    rw [hlength]

/-! ## Runs -/

/-- The last descriptor of a side is closed only while the inode is not locked. -/
def ClosesUnlocked (s : PipeSys π β) : PipeAct π β → Prop
  | .closei => s.ilock = false
  | _ => True

theorem Inv.boot (data : ℕ → β) : (PipeSys.boot data : PipeSys π β).Inv where
  stored := ⟨(slice_self data 0).symm, le_rfl, Nat.zero_le _, nofun, nofun⟩
  order _ := rfl
  fits _ := trivial
  alone _ _ h := h.elim
  fed _ h := h.elim

/-- Every step keeps the pipe in order. -/
theorem Inv.step {a : PipeAct π β} (h : s.Inv) (hok : s.ClosesUnlocked a)
    (hstep : s.step a = some s') : s'.Inv := by
  cases a with
  -- a call begins outside, with nothing read or written
  | read p count =>
    simp only [PipeSys.step] at hstep
    split at hstep
    case h_2 => cases hstep
    rename_i hp
    obtain ⟨-, rfl⟩ := Option.ite_none_right_eq_some.mp hstep |>.imp id Option.some.inj
    exact h.readp (by rw [hp]; exact not_false) (by rw [hp]; rfl) (by rw [hp]; exact not_false)
  | write p buf =>
    simp only [PipeSys.step] at hstep
    split at hstep
    case h_2 => cases hstep
    rename_i hp
    obtain ⟨-, rfl⟩ := Option.ite_none_right_eq_some.mp hstep |>.imp id Option.some.inj
    exact h.writep (by rw [hp]; exact not_false) (by rw [hp]; exact List.take_zero.symm)
      (Nat.zero_le _)
  | run p =>
    simp only [PipeSys.step] at hstep
    have hfits := h.fits p
    -- the process is at one of four pieces
    cases hp : s.pc p <;> rw [hp] at hstep hfits <;> simp only [reduceCtorEq] at hstep
    all_goals obtain rfl := Option.some.inj hstep
    case readPlock count =>
      exact h.readp (by rw [hp]; exact not_false) (by rw [hp]; rfl) (by rw [hp]; exact not_false)
    case readi => exact h.readi hp
    case writePlock => exact h.writep (by rw [hp]; exact not_false) (by rw [hp]; rfl) hfits
    case writei => exact h.writei hp
  -- a signal at a sleep: the call is left as far as it has come
  | abandon p =>
    simp only [PipeSys.step] at hstep
    have hfits := h.fits p
    cases hp : s.pc p <;> rw [hp] at hstep hfits <;> simp only [reduceCtorEq] at hstep
    all_goals obtain rfl := Option.some.inj hstep
    case readPlock | readSleep =>
      exact h.goto_outside (by rw [hp]; exact not_false) (by rw [hp]; rfl) trivial not_false nofun
    case writePlock =>
      exact h.writeDone (by rw [hp]; exact not_false) (by rw [hp]; rfl) hfits nofun
    case writeSleep =>
      exact h.writeDone (by rw [hp]; exact not_false) (by rw [hp]; rfl) hfits.1 nofun
  -- a wakeup without a reason: the loop looks again
  | stray p =>
    simp only [PipeSys.step] at hstep
    have hfits := h.fits p
    cases hp : s.pc p <;> rw [hp] at hstep hfits <;> simp only [reduceCtorEq] at hstep
    all_goals obtain rfl := Option.some.inj hstep
    case readSleep =>
      exact h.goto_outside (by rw [hp]; exact not_false) (by rw [hp]; rfl) trivial not_false nofun
    case writeSleep =>
      exact h.goto_outside (by rw [hp]; exact not_false) (by rw [hp]; rfl) hfits.1 not_false nofun
  | closef =>
    -- a close wakes both sides
    obtain rfl := Option.some.inj hstep
    exact h.unclog
  | closei =>
    obtain ⟨-, hstep⟩ := Option.ite_none_right_eq_some.mp hstep
    obtain rfl := Option.some.inj hstep
    refine h.unclog.congr ⟨rfl, rfl, rfl, rfl, rfl, rfl, rfl⟩ (Nat.sub_le ..) (fun _ _ => id)
      (fun _ _ => id) fun hl => ?_
    change s.ilock = true at hl
    -- the close is not made under the lock
    rw [show s.ilock = false from hok] at hl
    exact Bool.noConfusion hl

/-- In every run the pipe is in order. -/
theorem Inv.of_reachable {data : ℕ → β}
    (h : Reachable PipeSys.step ClosesUnlocked (PipeSys.boot data) s) : s.Inv :=
  h.invariant (Inv.boot data) fun _ _ _ hs hok hstep => hs.step hok hstep

/-- A lossless FIFO byte channel, whose readers and writers are served. -/
structure Lossless (s : PipeSys π β) : Prop where
  /-- The bytes delivered, then those in the pipe, are the bytes appended. -/
  fifo : s.appended.map Prod.snd =
    (s.reads.map Prod.snd).flatten ++ slice s.data s.f_offset s.i_size1
  /-- The bytes of a writer are the beginnings of its calls, in the order of the calls. -/
  order : ∀ p, s.appendedBy p = s.writtenBy p ++ (s.pc p).current
  /-- A call that returns without an error has written all it was given. -/
  whole : ∀ p, ∀ w ∈ s.writes p, w.done ≤ w.buf.length ∧ (w.ok = true → w.done = w.buf.length)
  le : s.f_offset ≤ s.i_size1
  cap : s.i_size1 ≤ PIPSIZ
  /-- A read call gets at most its count, and nothing only when one side is closed. -/
  served : ∀ r ∈ s.reads, r.2.length ≤ r.1 ∧ (r.1 ≠ 0 → r.2 = [] → s.i_count < 2)
  /-- No reader sleeps on data that a writer has appended. -/
  fed : ∀ p count, s.pc p = .readSleep count → s.f_offset = s.i_size1 ∨ ∃ q, (s.pc q).writing

/-- A pipe is a lossless FIFO in every run, and a writer sleeps for space only until a reader, at
the start of a read call, finds the pipe read out and resets it. -/
theorem pipe_lossless {data : ℕ → β} (h : Reachable step ClosesUnlocked (boot data) s) :
    s.Lossless ∧ ∀ p buf done, s.pc p = .writeSleep buf done → s.i_size1 = PIPSIZ := by
  have hinv := Inv.of_reachable h
  obtain ⟨hfifo, hle, hcap, hserved, hwhole⟩ := hinv.stored
  refine ⟨⟨hfifo, hinv.order, hwhole, hle, hcap, hserved, fun p count hp => ?_⟩,
    fun p buf done hp => ?_⟩
  · refine hinv.fed p ?_
    rw [hp]
    trivial
  · have hfits := hinv.fits p
    rw [hp] at hfits
    exact hfits.2.2

/-- One process writes a byte more than the pipe takes, the other reads all that is there. -/
def fillAndDrain : List (PipeAct (Fin 2) ℕ) :=
  .write 0 (List.range 4097) :: List.replicate 9 (.run 0) ++
    .read 1 4096 :: List.replicate 8 (.run 1)

/-- The check of a run that closes nothing. -/
def closesNothing (_ : PipeSys π β) : PipeAct π β → Bool
  | .closei => false
  | _ => true

omit [DecidableEq π] in
/-- A run without `close` unlocks nothing at the wrong time. -/
theorem closesUnlocked_of_closesNothing (s : PipeSys π β) (a : PipeAct π β)
    (h : closesNothing s a = true) : s.ClosesUnlocked a := by
  cases a with
  | closei => exact Bool.noConfusion h
  | _ => trivial

/-- The writer of `fillAndDrain` waits for space at its end, with the pipe read out. -/
def stuck (s : PipeSys (Fin 2) ℕ) : Bool :=
  decide (s.f_offset = s.i_size1) &&
    match s.pc 0, s.pc 1 with
    | .writeSleep _ _, .user => true
    | _, _ => false

/-- The run ends with a writer that nobody wakes. -/
theorem stuck_fillAndDrain :
    (checkedSteps step closesNothing fillAndDrain (boot fun _ => 0)).any stuck = true := by
  decide +kernel

/-- A writer can be asleep on a pipe that has been read empty. -/
theorem exists_stuck : ∃ s : PipeSys (Fin 2) ℕ,
    Reachable step ClosesUnlocked (boot fun _ => 0) s ∧ s.f_offset = s.i_size1 ∧
      s.pc 1 = .user ∧ ∃ buf done, s.pc 0 = .writeSleep buf done := by
  have hrun := stuck_fillAndDrain
  rw [Option.any_eq_true] at hrun
  obtain ⟨s, hs, hstuck⟩ := hrun
  refine ⟨s, Reachable.refl.of_checkedSteps closesUnlocked_of_closesNothing hs, ?_⟩
  unfold stuck at hstuck
  rw [Bool.and_eq_true, decide_eq_true_eq] at hstuck
  refine ⟨hstuck.1, ?_⟩
  have hpc := hstuck.2
  split at hpc
  · rename_i buf done hwriter hreader
    exact ⟨hreader, buf, done, hwriter⟩
  · exact Bool.noConfusion hpc

/-- The channel is lossless after that run, with the writer asleep at a full file: the reader has got
the numbers that the writer has appended, in order. -/
theorem pipe_lossless_fillAndDrain : ∃ s : PipeSys (Fin 2) ℕ,
    (s.Lossless ∧ ∀ p buf done, s.pc p = .writeSleep buf done → s.i_size1 = PIPSIZ) ∧
      (∃ buf done, s.pc 0 = .writeSleep buf done) ∧
      s.appended.map Prod.snd = (s.reads.map Prod.snd).flatten := by
  obtain ⟨s, hs, hout, -, hwriter⟩ := exists_stuck
  have hall := pipe_lossless hs
  refine ⟨s, hall, hwriter, ?_⟩
  rw [hall.1.fifo, hout, slice_self, List.append_nil]

/-- The read that takes the last bytes leaves the writer asleep: only the next one resets the
pipe. -/
theorem not_pipe_lossless : ¬∀ s : PipeSys (Fin 2) ℕ,
    Reachable step ClosesUnlocked (boot fun _ => 0) s →
      s.Lossless ∧ ∀ p buf done, s.pc p = .writeSleep buf done →
        s.f_offset ≠ s.i_size1 ∨ ∃ q, q ≠ p ∧ s.pc q ≠ .user := by
  intro hall
  obtain ⟨s, hs, hout, hreader, buf, done, hwriter⟩ := exists_stuck
  rcases (hall s hs).2 0 buf done hwriter with hne | ⟨q, hq, hbusy⟩
  · exact hne hout
  · have hq1 : q = 1 := by omega
    subst hq1
    exact hbusy hreader

end PipeSys

end UnixV6
