import UnixV6.Dmr.Ide
import UnixV6.Ken.Rdwri
import UnixV6.Lib.Run

/-!
# The sleep system call (`ken/sys2.c`, `ken/sys4.c`, `ken/clock.c`)

Every process in the system call `sleep` waits for the one time `tout`: the clock wakes all of them
when the time is exactly `tout`, `stime` whenever it is called. A process that wakes finds out
whether its own deadline has come, and otherwise sees to it that `tout` is not later.

A step is what runs between two places where another process or the clock can get in: from the
call, or from the return of `swtch`, to the next sleep or to the end of the call. `sslep` keeps the
clock out (`spl7`); `stime` does not, so that seconds may pass between its stores.
-/

open Function

namespace UnixV6.Sslep

/-- `int x[2]`, the high word first. -/
structure DWord where
  hi : Word
  lo : Word
  deriving DecidableEq, Repr

namespace DWord

/-- As a long integer. -/
def i32 (x : DWord) : BitVec 32 := x.hi ++ x.lo

def ofI32 (x : BitVec 32) : DWord := ⟨x.extractLsb' 16 16, x.extractLsb' 0 16⟩

/-- `if(++time[1] == 0) ++time[0]` -/
def next (x : DWord) : DWord := ⟨if x.lo + 1 = 0 then x.hi + 1 else x.hi, x.lo + 1⟩

/-- The number that `x` stands for when it is not negative. -/
def val (x : DWord) : ℕ := x.i32.toNat

end DWord

/-- `dpadd`: the second number is taken as unsigned. -/
def dpadd (x : DWord) (y : Word) : DWord := .ofI32 (x.i32 + y.setWidth 32)

/-- Where a process is. -/
inductive SleepPc
  | user
  /-- Asleep on `tout`, with its deadline. -/
  | asleep (d : DWord)
  /-- Made runnable, still in the system call. -/
  | ready (d : DWord)
  /-- The system call has returned, and no signal has cut it short. -/
  | returned (d : DWord)
  deriving DecidableEq, Repr

structure SleepSys (π : Type) where
  time : DWord
  tout : DWord
  pc : π → SleepPc

section

variable {π : Type}

namespace SleepSys

/-- `setrun` of a process asleep here. -/
def setrun : SleepPc → SleepPc
  | .asleep d => .ready d
  | k => k

/-- `wakeup(tout)` -/
def wakeup (s : SleepSys π) : SleepSys π := { s with pc := fun p => setrun (s.pc p) }

/-- A second of `clock`. -/
def second (s : SleepSys π) : SleepSys π :=
  let s := { s with time := s.time.next }
  if s.time.lo = s.tout.lo ∧ s.time.hi = s.tout.hi then s.wakeup else s

/-- `stime`, with `m` seconds after its first store and `n` after the second one. -/
def stime (s : SleepSys π) (suser : Bool) (r0 r1 : Word) (m n : ℕ) : SleepSys π :=
  if suser then
    let s := { s with time := { s.time with hi := r0 } }
    let s := second^[m] s
    let s := { s with time := { s.time with lo := r1 } }
    let s := second^[n] s
    s.wakeup
  else s

variable [DecidableEq π]

def goto (s : SleepSys π) (p : π) (k : SleepPc) : SleepSys π := { s with pc := update s.pc p k }

/-- `sleep(tout, PSLEP)`: a signal that is pending ends the system call. -/
def sleep (s : SleepSys π) (p : π) (d : DWord) (issig : Bool) : SleepSys π :=
  if issig then s.goto p .user else s.goto p (.asleep d)

/-- A turn of the loop of `sslep`. -/
def loop (s : SleepSys π) (p : π) (d : DWord) (issig : Bool) : SleepSys π :=
  if 0 < (dpcmp d.i32 s.time.i32).toInt then
    let s :=
      if (dpcmp s.tout.i32 s.time.i32).toInt ≤ 0 ∨ 0 < (dpcmp s.tout.i32 d.i32).toInt then
        { s with tout := d }
      else s
    s.sleep p d issig
  else s.goto p (.returned d)

def sslep (s : SleepSys π) (p : π) (r0 : Word) (issig : Bool) : SleepSys π :=
  s.loop p (dpadd s.time r0) issig

end SleepSys

inductive SleepAct (π : Type)
  | sslep (p : π) (r0 : Word) (issig : Bool)
  /-- `swtch` returns to a process; `issig` is asked then, and again before it sleeps. -/
  | resume (p : π) (woken issig : Bool)
  | second
  | stime (p : π) (suser : Bool) (r0 r1 : Word) (m n : ℕ)
  /-- A signal makes a sleeping process runnable. -/
  | signal (p : π)
  deriving DecidableEq, Repr

/-- A process that is in no system call. -/
def SleepPc.isUser : SleepPc → Bool
  | .user | .returned _ => true
  | _ => false

def step [DecidableEq π] (s : SleepSys π) : SleepAct π → Option (SleepSys π)
  | .sslep p r0 issig => if (s.pc p).isUser then some (s.sslep p r0 issig) else none
  | .resume p woken issig =>
    match s.pc p with
    | .ready d => some (if woken then s.goto p .user else s.loop p d issig)
    | _ => none
  | .second => some s.second
  | .stime p suser r0 r1 m n => if (s.pc p).isUser then some (s.stime suser r0 r1 m n) else none
  | .signal p => some (s.goto p (SleepSys.setrun (s.pc p)))

/-! ## Times that are not negative -/

/-- Where a process is on its way to a deadline. -/
def SleepPc.deadline : SleepPc → Option DWord
  | .asleep d | .ready d => some d
  | _ => none

/-- The time and all deadlines are in 0..2^31-1. -/
structure Within (s : SleepSys π) : Prop where
  time : s.time.val < 2 ^ 31
  deadline : ∀ p d, (s.pc p).deadline = some d → d.val < 2 ^ 31

/-- The comparison of two such times. -/
theorem dpcmp_pos_iff {x y : DWord} (hx : x.val < 2 ^ 31) (hy : y.val < 2 ^ 31) :
    0 < (dpcmp x.i32 y.i32).toInt ↔ y.val < x.val := by
  have hx' : x.i32.toInt = x.val := by
    rw [BitVec.toInt_eq_toNat_cond, DWord.val]
    rw [DWord.val] at hx
    omega
  have hy' : y.i32.toInt = y.val := by
    rw [BitVec.toInt_eq_toNat_cond, DWord.val]
    rw [DWord.val] at hy
    omega
  rw [dpcmp_toInt, BitVec.toInt_sub, hx', hy', Int.bmod_def]
  omega

theorem DWord.val_eq (x : DWord) : x.val = x.hi.toNat * 65536 + x.lo.toNat := by
  rw [val, i32, BitVec.toNat_append, ← Nat.shiftLeft_add_eq_or_of_lt x.lo.isLt, Nat.shiftLeft_eq]

theorem DWord.eq_of_val {x y : DWord} (h : x.val = y.val) : x.lo = y.lo ∧ x.hi = y.hi := by
  rw [val_eq, val_eq] at h
  constructor <;> bv_omega

theorem DWord.next_val {x : DWord} (h : x.val < 2 ^ 31) : x.next.val = x.val + 1 := by
  rw [val_eq, val_eq, next]
  rw [val_eq] at h
  simp only
  split <;> bv_omega

/-! ## The invariant -/

/-- Whoever is asleep is asleep for a time that is still to come and not after its deadline. -/
structure Inv (s : SleepSys π) : Prop where
  tout : s.tout.val < 2 ^ 31
  sleeper : ∀ p d, s.pc p = .asleep d → s.time.val < s.tout.val ∧ s.tout.val ≤ d.val

namespace SleepSys

theorem setrun_ne_asleep (k : SleepPc) (d : DWord) : setrun k ≠ .asleep d := by
  cases k <;> simp [setrun]

/-- A sleeper that is woken is ready. -/
theorem setrun_asleep {k : SleepPc} {d : DWord} (h : k = .asleep d) : setrun k = .ready d := by
  rw [h, setrun]

/-- A process that has returned had returned before. -/
theorem setrun_returned {k : SleepPc} {d : DWord} (h : setrun k = .returned d) :
    k = .returned d := by
  cases k <;> simp_all [setrun]

theorem setrun_deadline (k : SleepPc) : (setrun k).deadline = k.deadline := by
  cases k <;> rfl

/-- When all are awake there is nothing to show. -/
theorem inv_wakeup {s : SleepSys π} (htout : s.tout.val < 2 ^ 31) : Inv s.wakeup :=
  ⟨htout, fun p d h => absurd h (setrun_ne_asleep (s.pc p) d)⟩

theorem second_time (s : SleepSys π) : s.second.time = s.time.next := by
  simp only [second]
  split <;> rfl

theorem second_tout (s : SleepSys π) : s.second.tout = s.tout := by
  simp only [second]
  split <;> rfl

/-- A second wakes everybody, or nobody if the time is not `tout`. -/
theorem second_pc (s : SleepSys π) :
    s.second.pc = s.wakeup.pc ∨ s.second.pc = s.pc ∧ s.time.next.val ≠ s.tout.val := by
  simp only [second]
  split
  case isTrue => exact .inl rfl
  case isFalse h => exact .inr ⟨rfl, fun hval => h (DWord.eq_of_val hval)⟩

/-- A second keeps the deadlines. -/
theorem inv_second {s : SleepSys π} (hI : Inv s) (htime : s.time.val < 2 ^ 31) :
    Inv s.second := by
  have hnext := DWord.next_val htime
  refine ⟨by rw [second_tout]; exact hI.tout, fun p d hp => ?_⟩
  rw [second_time, second_tout]
  rcases second_pc s with hpc | ⟨hpc, hne⟩
  · rw [hpc] at hp
    exact absurd hp (setrun_ne_asleep _ d)
  · rw [hpc] at hp
    obtain ⟨h₁, h₂⟩ := hI.sleeper p d hp
    omega

theorem iterate_second_tout (n : ℕ) (s : SleepSys π) : (second^[n] s).tout = s.tout := by
  induction n generalizing s with
  | zero => rfl
  | succ n ih => rw [iterate_succ_apply, ih, second_tout]

/-- `stime` keeps the deadlines. -/
theorem inv_stime {s : SleepSys π} {suser : Bool} {r0 r1 : Word} {m n : ℕ} (hI : Inv s) :
    Inv (s.stime suser r0 r1 m n) := by
  simp only [stime]
  split
  · apply inv_wakeup
    rw [iterate_second_tout]
    show (second^[m] _).tout.val < 2 ^ 31
    rw [iterate_second_tout]
    exact hI.tout
  · exact hI

/-- Some of those asleep are made runnable, and nothing else happens to a process. -/
def Rouses (s s' : SleepSys π) : Prop := ∀ p, s'.pc p = s.pc p ∨ s'.pc p = setrun (s.pc p)

theorem setrun_setrun (k : SleepPc) : setrun (setrun k) = setrun k := by
  cases k <;> rfl

/-- Two steps that only wake processes up. -/
theorem Rouses.trans {s s' s'' : SleepSys π} (h : Rouses s s') (h' : Rouses s' s'') :
    Rouses s s'' := by
  intro p
  rcases h p with h₁ | h₁ <;> rcases h' p with h₂ | h₂ <;> rw [h₂, h₁]
  · exact .inl rfl
  · exact .inr rfl
  · exact .inr rfl
  · exact .inr (setrun_setrun _)

theorem rouses_second (s : SleepSys π) : Rouses s s.second := by
  intro p
  rcases second_pc s with hpc | ⟨hpc, -⟩
  · exact .inr (congrFun hpc p)
  · exact .inl (congrFun hpc p)

theorem rouses_iterate_second (n : ℕ) (s : SleepSys π) : Rouses s (second^[n] s) := by
  induction n generalizing s with
  | zero => exact fun p => .inl rfl
  | succ n ih => exact (rouses_second s).trans (ih s.second)

/-- `stime` only wakes processes up. -/
theorem rouses_stime (s : SleepSys π) (suser : Bool) (r0 r1 : Word) (m n : ℕ) :
    Rouses s (s.stime suser r0 r1 m n) := by
  simp only [stime]
  split
  case isFalse => exact fun p => .inl rfl
  -- the stores change no process
  have h₁ := rouses_iterate_second m { s with time := { s.time with hi := r0 } }
  let s₁ := second^[m] { s with time := { s.time with hi := r0 } }
  have h₂ := rouses_iterate_second n { s₁ with time := { s₁.time with lo := r1 } }
  have h₃ : Rouses s (second^[n] { s₁ with time := { s₁.time with lo := r1 } }) := h₁.trans h₂
  exact h₃.trans fun p => .inr rfl

/-- The deadlines stay when processes are woken up. -/
theorem Rouses.deadline {s s' : SleepSys π} (h : Rouses s s') (p : π) :
    (s'.pc p).deadline = (s.pc p).deadline := by
  rcases h p with h | h <;> rw [h]
  exact setrun_deadline _

variable [DecidableEq π]

/-- A process that comes to rest elsewhere. -/
theorem inv_goto {s : SleepSys π} {p : π} {k : SleepPc} (hI : Inv s) (hk : ∀ d, k ≠ .asleep d) :
    Inv (s.goto p k) := by
  refine ⟨hI.tout, fun q d hq => ?_⟩
  simp only [goto] at hq
  rcases eq_or_ne q p with rfl | hqp
  · rw [update_self] at hq
    exact absurd hq (hk d)
  · rw [update_of_ne hqp] at hq
    exact hI.sleeper q d hq

/-- A process that falls asleep in time. -/
theorem inv_asleep {s : SleepSys π} {p : π} {d : DWord} (hI : Inv s)
    (htime : s.time.val < s.tout.val) (hle : s.tout.val ≤ d.val) : Inv (s.goto p (.asleep d)) := by
  refine ⟨hI.tout, fun q e hq => ?_⟩
  simp only [goto] at hq
  rcases eq_or_ne q p with rfl | hqp
  · rw [update_self] at hq
    cases hq
    exact ⟨htime, hle⟩
  · rw [update_of_ne hqp] at hq
    exact hI.sleeper q e hq

/-- `sleep` for a `tout` that is right for the deadline. -/
theorem inv_sleep {s : SleepSys π} {p : π} {d : DWord} {issig : Bool} (hI : Inv s)
    (htime : s.time.val < s.tout.val) (hle : s.tout.val ≤ d.val) : Inv (s.sleep p d issig) := by
  unfold SleepSys.sleep
  split
  · exact inv_goto hI (by simp)
  · exact inv_asleep hI htime hle

/-- A turn of `sslep`. -/
theorem inv_loop {s : SleepSys π} {p : π} {d : DWord} {issig : Bool} (hI : Inv s)
    (htime : s.time.val < 2 ^ 31) (hd : d.val < 2 ^ 31) : Inv (s.loop p d issig) := by
  have hlate := dpcmp_pos_iff hd htime
  have hpast := dpcmp_pos_iff hI.tout htime
  have hafter := dpcmp_pos_iff hI.tout hd
  simp only [loop]
  split
  case isFalse => exact inv_goto hI (by simp)
  rename_i hwait
  rw [hlate] at hwait
  split
  case isTrue hset =>
    -- `tout` becomes the deadline; whoever sleeps already has a later one
    have hI' : Inv { s with tout := d } := by
      refine ⟨hd, fun q e hq => ?_⟩
      obtain ⟨h₁, h₂⟩ := hI.sleeper q e hq
      refine ⟨hwait, ?_⟩
      rcases hset with hset | hset
      · rw [← not_lt, hpast] at hset
        omega
      · rw [hafter] at hset
        show d.val ≤ e.val
        omega
    exact inv_sleep hI' hwait (le_refl _)
  case isFalse hset =>
    rw [not_or, not_le, hpast, hafter] at hset
    exact inv_sleep hI hset.1 (by omega)

end SleepSys

open SleepSys

variable [DecidableEq π]


/-- A turn of `sslep` concerns its own process; it returns only when the deadline has come. -/
theorem loop_spec (s : SleepSys π) (p : π) (d : DWord) (issig : Bool) :
    (s.loop p d issig).time = s.time ∧ ∃ k, (s.loop p d issig).pc = update s.pc p k ∧
      (∀ e, k.deadline = some e → e = d) ∧
      ∀ e, k = .returned e → e = d ∧ ¬ 0 < (dpcmp d.i32 s.time.i32).toInt := by
  simp only [loop]
  split
  · unfold SleepSys.sleep goto
    split <;> split <;> exact ⟨rfl, _, rfl, by simp [SleepPc.deadline], by simp⟩
  case isFalse hdone =>
    refine ⟨rfl, _, rfl, by simp [SleepPc.deadline], fun e he => ⟨?_, hdone⟩⟩
    cases he
    rfl

/-- What a step does to the processes. -/
theorem step_cases {s s' : SleepSys π} {a : SleepAct π} (h : step s a = some s') :
    Rouses s s' ∨ (∃ p d, s.pc p = .ready d ∧ s' = s.goto p .user) ∨
      ∃ p d issig, s' = s.loop p d issig ∧ (∀ e, s.pc p ≠ .asleep e) ∧
        ((∃ r0, a = .sslep p r0 issig ∧ d = dpadd s.time r0) ∨ s.pc p = .ready d) := by
  cases a with
  -- a call, or a sleeper that comes back: one turn of the loop
  | sslep p r0 issig =>
    obtain ⟨huser, h⟩ := Option.ite_none_right_eq_some.mp h
    cases h
    refine .inr (.inr ⟨p, _, issig, rfl, fun e he => ?_, .inl ⟨r0, rfl, rfl⟩⟩)
    rw [he] at huser
    cases huser
  | resume p woken issig =>
    simp only [step] at h
    split at h
    case h_2 => cases h
    rename_i d hd
    -- it is late enough, or it goes round again
    split at h
    · cases h
      exact .inr (.inl ⟨p, d, hd, rfl⟩)
    · cases h
      exact .inr (.inr ⟨p, d, issig, rfl, fun e he => by simp [hd] at he, .inr hd⟩)
  | second =>
    -- the clock wakes those whose time it is
    cases h
    exact .inl (rouses_second s)
  -- `stime` too, by the new time
  | stime p suser r0 r1 m n =>
    obtain ⟨-, h⟩ := Option.ite_none_right_eq_some.mp h
    cases h
    exact .inl (rouses_stime s suser r0 r1 m n)
  -- a signal only makes the process ready
  | signal p =>
    cases h
    refine .inl fun q => ?_
    rcases eq_or_ne q p with rfl | hqp
    · exact .inr (by simp [goto])
    · exact .inl (by simp [goto, hqp])

/-- The time and the deadlines of a step are in 0..2^31-1. -/
structure Ok (s : SleepSys π) (a : SleepAct π) : Prop where
  time : ∀ s', step s a = some s' → s'.time.val < 2 ^ 31
  deadline : ∀ p r0 issig, a = .sslep p r0 issig → (dpadd s.time r0).val < 2 ^ 31

/-- Every step keeps the time within its bounds. -/
theorem Within.step {s s' : SleepSys π} {a : SleepAct π} (hw : Within s) (hok : Ok s a)
    (h : step s a = some s') : Within s' := by
  refine ⟨hok.time s' h, fun q e hq => ?_⟩
  rcases step_cases h with hrouse | ⟨p, d, hp, rfl⟩ | ⟨p, d, issig, rfl, -, hd⟩
  · rw [hrouse.deadline] at hq
    exact hw.deadline q e hq
  · rcases eq_or_ne q p with rfl | hqp
    · simp [goto, SleepPc.deadline] at hq
    · exact hw.deadline q e (by simpa [goto, hqp] using hq)
  · obtain ⟨-, k, hpc, hk, -⟩ := loop_spec s p d issig
    rw [hpc] at hq
    rcases eq_or_ne q p with rfl | hqp
    · rw [update_self] at hq
      rw [hk e hq]
      rcases hd with ⟨r0, rfl, rfl⟩ | hd
      · exact hok.deadline q r0 issig rfl
      · exact hw.deadline q d (by rw [hd, SleepPc.deadline])
    · rw [update_of_ne hqp] at hq
      exact hw.deadline q e hq

/-- Every step keeps the deadlines. -/
theorem Inv.step {s s' : SleepSys π} {a : SleepAct π} (hI : Inv s) (hw : Within s) (hok : Ok s a)
    (h : step s a = some s') : Inv s' := by
  cases a with
  | sslep p r0 issig =>
    obtain ⟨-, h⟩ := Option.ite_none_right_eq_some.mp h
    cases h
    exact inv_loop hI hw.time (hok.deadline p r0 issig rfl)
  | resume p woken issig =>
    simp only [Sslep.step] at h
    split at h
    case h_2 => cases h
    rename_i d hd
    split at h
    · cases h
      exact inv_goto hI (by simp)
    · cases h
      exact inv_loop hI hw.time (hw.deadline p d (by rw [hd, SleepPc.deadline]))
  | second =>
    cases h
    exact inv_second hI hw.time
  | stime p suser r0 r1 m n =>
    obtain ⟨-, h⟩ := Option.ite_none_right_eq_some.mp h
    cases h
    exact inv_stime hI
  | signal p =>
    cases h
    exact inv_goto hI (setrun_ne_asleep _)

/-- Nobody sleeps, and the system has just come up. -/
def boot (t : DWord) : SleepSys π where
  time := t
  tout := ⟨0, 0⟩
  pc := fun _ => .user

/-- In every run no deadline lies before `tout`. -/
theorem inv_of_reachable {t : DWord} {s : SleepSys π} (ht : t.val < 2 ^ 31)
    (hs : Reachable step Ok (boot t) s) : Inv s ∧ Within s := by
  refine hs.invariant (P := fun s => Inv s ∧ Within s) ⟨⟨?_, ?_⟩, ht, ?_⟩ ?_
  · show (DWord.mk 0 0).val < 2 ^ 31
    decide
  · exact fun p d h => by simp [boot] at h
  · exact fun p d h => by simp [boot, SleepPc.deadline] at h
  · exact fun s a s' ⟨hI, hw⟩ hok h => ⟨hI.step hw hok h, hw.step hok h⟩

/-- Whoever the next state finds past its deadline has been made runnable. -/
theorem ready_of_deadline {s s' : SleepSys π} {a : SleepAct π} (hI' : Inv s') (h : step s a = some s')
    {p : π} {d : DWord} (hp : s.pc p = .asleep d) (hd : d.val ≤ s'.time.val) :
    s'.pc p = .ready d := by
  have hawake : s'.pc p ≠ .asleep d := fun hp' => by
    obtain ⟨h₁, h₂⟩ := hI'.sleeper p d hp'
    omega
  rcases step_cases h with hrouse | ⟨q, e, hq, rfl⟩ | ⟨q, e, issig, rfl, hq, -⟩
  · rcases hrouse p with hsame | hset
    · exact absurd (hsame.trans hp) hawake
    · exact hset.trans (setrun_asleep hp)
  · have hpq : p ≠ q := fun hpq => by simp [hpq, hq] at hp
    simp [goto, hpq, hp] at hawake
  · have hpq : p ≠ q := fun hpq => hq d (by rw [← hpq, hp])
    obtain ⟨-, k, hpc, -⟩ := loop_spec s q e issig
    rw [hpc, update_of_ne hpq] at hawake
    exact absurd hp hawake

/-- A process that has come to the end of the system call in this step is not early. -/
theorem deadline_le_of_returned {s s' : SleepSys π} {a : SleepAct π} (hw : Within s) (hok : Ok s a)
    (h : step s a = some s') {p : π} {d : DWord} (hp : s'.pc p = .returned d)
    (hnew : s.pc p ≠ .returned d) : d.val ≤ s'.time.val := by
  rcases step_cases h with hrouse | ⟨q, e, -, rfl⟩ | ⟨q, e, issig, rfl, -, he⟩
  · rcases hrouse p with hsame | hset
    · exact absurd (hsame.symm.trans hp) hnew
    · exact absurd (setrun_returned (hset.symm.trans hp)) hnew
  · rcases eq_or_ne p q with rfl | hpq
    · simp [goto] at hp
    · exact absurd (by simpa [goto, hpq] using hp) hnew
  · obtain ⟨htime, k, hpc, -, hk⟩ := loop_spec s q e issig
    rw [hpc] at hp
    rcases eq_or_ne p q with rfl | hpq
    · rw [update_self] at hp
      obtain ⟨rfl, hlate⟩ := hk d hp
      have hd : d.val < 2 ^ 31 := by
        rcases he with ⟨r0, rfl, rfl⟩ | he
        · exact hok.deadline p r0 issig rfl
        · exact hw.deadline p d (by rw [he, SleepPc.deadline])
      rw [dpcmp_pos_iff hd hw.time] at hlate
      rw [htime]
      omega
    · rw [update_of_ne hpq] at hp
      exact absurd hp hnew

/-- No sleeper misses its alarm: a process asleep with deadline `d` has `time < tout ≤ d`; the
step that brings the time to its deadline has made it runnable; and the system call returns, unless
a signal cuts it short, only when the time has come. -/
theorem no_missed_alarm {t : DWord} {s : SleepSys π} (ht : t.val < 2 ^ 31)
    (hs : Reachable step Ok (boot t) s) :
    (∀ p d, s.pc p = .asleep d → s.time.val < s.tout.val ∧ s.tout.val ≤ d.val) ∧
      ∀ a s', Ok s a → step s a = some s' →
        (∀ p d, s.pc p = .asleep d → d.val ≤ s'.time.val → s'.pc p = .ready d) ∧
        ∀ p d, s'.pc p = .returned d → s.pc p ≠ .returned d → d.val ≤ s'.time.val := by
  obtain ⟨hI, hw⟩ := inv_of_reachable ht hs
  refine ⟨hI.sleeper, fun a s' hok h => ⟨fun p d hp hd => ?_, fun p d hp hnew => ?_⟩⟩
  · exact ready_of_deadline (hI.step hw hok h) h hp hd
  · exact deadline_le_of_returned hw hok h hp hnew

/-- `Ok` as a test. -/
def checkOk (s : SleepSys π) (a : SleepAct π) : Bool :=
  (match step s a with
    | some s' => s'.time.val < 2 ^ 31
    | none => true) &&
  match a with
  | .sslep _ r0 _ => (dpadd s.time r0).val < 2 ^ 31
  | _ => true

/-- The condition of a step can be checked. -/
theorem ok_of_checkOk (s : SleepSys π) (a : SleepAct π) (h : checkOk s a = true) : Ok s a := by
  obtain ⟨htime, hdeadline⟩ := Bool.and_eq_true_iff.mp h
  refine ⟨fun s' hs' => ?_, fun p r0 issig ha => ?_⟩
  · rw [hs'] at htime
    simpa using htime
  · subst ha
    simpa using hdeadline

end

/-- A short and a long sleep, and `stime` to a time between the two deadlines. -/
def sleepAndSet : List (SleepAct Bool) :=
  [.sslep true 9 false, .sslep false 2 false, .second, .second, .resume true false false,
    .resume false false false, .stime false true 0 107 0 1, .resume true false false]

/-- The long sleeper is asleep again, a second before its deadline. -/
theorem no_missed_alarm_sleepAndSet : ∃ s : SleepSys Bool,
    checkedSteps step checkOk sleepAndSet (boot ⟨0, 100⟩) = some s ∧
      s.pc true = .asleep ⟨0, 109⟩ ∧ s.time.val < s.tout.val ∧ s.tout.val ≤ 109 := by
  have hrun : (checkedSteps step checkOk sleepAndSet (boot ⟨0, 100⟩)).any
      (fun s : SleepSys Bool => s.pc true = .asleep ⟨0, 109⟩) = true := by
    decide +kernel
  obtain ⟨s, hs, hp⟩ := (Option.any_eq_true _ _).mp hrun
  have hp : s.pc true = .asleep ⟨0, 109⟩ := of_decide_eq_true hp
  have hreach := Reachable.refl.of_checkedSteps ok_of_checkOk hs
  exact ⟨s, hs, hp, (no_missed_alarm (by decide) hreach).1 true ⟨0, 109⟩ hp⟩

end UnixV6.Sslep
