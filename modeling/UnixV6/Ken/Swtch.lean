import UnixV6.Ken.Slp
import UnixV6.Lib.Circle

/-!
# The dispatcher (`ken/slp.c`)

`swtch` looks for the process that runs next: in a circle through the process table, from behind
the slot that it has chosen last, for a process that is loaded, runnable and of least `p_pri`. That
slot is kept in a static variable, which only `swtch` can reach. `pass` is one turn from `loop` on,
which ends in `idle` or in `resume`; what precedes `loop` brings the caller to the stack of process
0, and nothing in it depends on the table. Between two passes processes and interrupts change the
table as they like.
-/

open Function

namespace UnixV6

/-- The priority of a process in user mode, before its CPU time and its `nice` are counted. -/
def PUSER : ℤ := 100

/-- What the dispatcher reads of `struct proc`. -/
structure ProcPri where
  p_stat : PStat
  p_flag : PFlag
  p_pri : BitVec 8
  p_cpu : BitVec 8
  p_nice : BitVec 8
  deriving DecidableEq

/-- The process table, the static variable `p` of `swtch` and the scheduling flags. -/
structure Dispatch where
  proc : Slot → ProcPri
  p : Option Slot
  curpri : BitVec 8
  runrun : BitVec 8

/-- The process is runnable and in core. -/
def ProcPri.Loaded (r : ProcPri) : Prop := r.p_stat = .srun ∧ r.p_flag.sload = true

instance (r : ProcPri) : Decidable r.Loaded := inferInstanceAs (Decidable (_ ∧ _))

namespace Dispatch

/-- `setrun`, as far as the dispatcher can see it. -/
def setrun (d : Dispatch) (rp : Slot) : Dispatch :=
  { d with
    proc := update d.proc rp { d.proc rp with p_stat := .srun }
    runrun := if (d.proc rp).p_pri.toInt < d.curpri.toInt then d.runrun + 1 else d.runrun }

/-- `setpri`. -/
def setpri (d : Dispatch) (pp : Slot) : Dispatch :=
  let p : ℤ := (d.proc pp).p_cpu.toNat / 16 + (PUSER + (d.proc pp).p_nice.toInt)
  let p := if p > 127 then 127 else p
  { d with
    proc := update d.proc pp { d.proc pp with p_pri := BitVec.ofInt 8 p }
    runrun := if p < d.curpri.toInt then d.runrun + 1 else d.runrun }

/-- `rp++`, and from the end of the table back to its start. -/
def step (rp : Slot) : Slot := if h : rp.val + 1 < NPROC then ⟨rp.val + 1, h⟩ else 0

/-- The search loop of `swtch`, for `i` more slots: `rp`, `p` and `n` at its end. -/
def search (proc : Slot → ProcPri) : ℕ → Slot → Option Slot → ℤ → Slot × Option Slot × ℤ
  | 0, rp, p, n => (rp, p, n)
  | i + 1, rp, p, n =>
    let rp := step rp
    -- the comparison is strict: of equals the first one met is kept
    if (proc rp).Loaded ∧ (proc rp).p_pri.toInt < n then
      search proc i rp (some rp) (proc rp).p_pri.toInt
    else search proc i rp p n

/-- `swtch` from `loop` on: the process that is resumed, or `none` if it idles. -/
def pass (d : Dispatch) : Option Slot × Dispatch :=
  match search d.proc NPROC (d.p.getD 0) none 128 with
  | (rp, none, _) => (none, { d with runrun := 0, p := some rp })
  | (_, some p, n) =>
    (some p, { d with
      proc := update d.proc p
        { d.proc p with p_flag := { (d.proc p).p_flag with sswap := false } }
      p := some p, runrun := 0, curpri := BitVec.ofInt 8 n })

end Dispatch

/-- What can happen next. -/
inductive DispatchAct
  /-- `swtch` goes through the table. -/
  | pass
  /-- A process is made runnable. -/
  | setrun (rp : Slot)
  /-- The priority of a process is computed anew. -/
  | setpri (pp : Slot)
  /-- Anything else that changes the table: `sleep`, `sched`, `fork`, `exit`, signals, the clock. -/
  | change (proc : Slot → ProcPri)

namespace Dispatch

/-- One action, with the process that it selects, if any. -/
def act (d : Dispatch) : DispatchAct → Option Slot × Dispatch
  | .pass => d.pass
  | .setrun rp => (none, d.setrun rp)
  | .setpri pp => (none, d.setpri pp)
  | .change proc => (none, { d with proc })

/-- The processes that are selected in a run, in order. -/
def selections (d : Dispatch) : List DispatchAct → List Slot
  | [] => []
  | a :: as => (d.act a).1.toList ++ (d.act a).2.selections as

/-- The slot after which the search starts. -/
def position (d : Dispatch) : Slot := d.p.getD 0

/-- `q` may run next and no process that may has a lower priority. -/
def IsLeast (d : Dispatch) (q : Slot) : Prop :=
  (d.proc q).Loaded ∧ ∀ r, (d.proc r).Loaded → (d.proc q).p_pri.toInt ≤ (d.proc r).p_pri.toInt

/-- The processes of `S` may run next, all with one priority, and no other process may with that
priority or a lower one. -/
def Least (d : Dispatch) (S : Finset Slot) : Prop :=
  ∃ n : ℤ, (∀ q ∈ S, (d.proc q).Loaded ∧ (d.proc q).p_pri.toInt = n) ∧
    ∀ q ∉ S, (d.proc q).Loaded → n < (d.proc q).p_pri.toInt

/-- Whenever `swtch` searches in the run, the processes of `S` are the ones of least priority. -/
def Steady (S : Finset Slot) : Dispatch → List DispatchAct → Prop
  | _, [] => True
  | d, a :: as => (a = .pass → d.Least S) ∧ Steady S (d.act a).2 as

/-! ## One search -/

theorem step_eq_advance (p : Slot) (j : ℕ) :
    step (Circle.advance p j) = Circle.advance p (j + 1) := by
  ext
  unfold step Circle.advance
  simp only [NPROC]
  split_ifs with h
  · change (p.val + j) % 50 + 1 = (p.val + (j + 1)) % 50
    omega
  · change 0 = (p.val + (j + 1)) % 50
    omega

/-- The search that started behind `p₀` has met the next `j` slots: `rp` is the last of them, and
`p` the first one of least priority `n` among those that may run. -/
structure Searched (proc : Slot → ProcPri) (p₀ : Slot) (j : ℕ) (rp : Slot) (p : Option Slot)
    (n : ℤ) : Prop where
  last : rp = Circle.advance p₀ j
  none_found : p = none → n = 128 ∧ ∀ r, Circle.ahead p₀ r ≤ j → ¬(proc r).Loaded
  found : ∀ q, p = some q → Circle.ahead p₀ q ≤ j ∧ (proc q).Loaded ∧ (proc q).p_pri.toInt = n
  least : ∀ r, Circle.ahead p₀ r ≤ j → (proc r).Loaded → n ≤ (proc r).p_pri.toInt
  first : ∀ q r, p = some q → (proc r).Loaded → (proc r).p_pri.toInt = n →
    Circle.ahead p₀ q ≤ Circle.ahead p₀ r

variable {proc : Slot → ProcPri} {p₀ rp : Slot} {p : Option Slot} {n : ℤ} {j : ℕ}

/-- A priority is a byte, so 128 is above every priority. -/
theorem p_pri_lt (r : ProcPri) : r.p_pri.toInt < 128 := by
  have := BitVec.two_mul_toInt_lt (x := r.p_pri)
  omega

theorem searched_zero (proc : Slot → ProcPri) (p₀ : Slot) : Searched proc p₀ 0 p₀ none 128 where
  last := (Circle.advance_zero p₀).symm
  none_found _ := ⟨rfl, fun r hr => absurd (Circle.one_le_ahead p₀ r) (by omega)⟩
  found _ h := nomatch h
  least r hr := absurd (Circle.one_le_ahead p₀ r) (by omega)
  first _ _ h := nomatch h

theorem Searched.take (h : Searched proc p₀ j rp p n) (hj : j < NPROC)
    (hload : (proc (step rp)).Loaded) (hpri : (proc (step rp)).p_pri.toInt < n) :
    Searched proc p₀ (j + 1) (step rp) (some (step rp)) (proc (step rp)).p_pri.toInt := by
  have hlast : step rp = Circle.advance p₀ (j + 1) := by rw [h.last, step_eq_advance]
  have hahead : Circle.ahead p₀ (step rp) = j + 1 :=
    (Circle.eq_advance_iff (Nat.le_add_left 1 j) hj).mp hlast
  refine ⟨hlast, nofun, ?_, ?_, ?_⟩
  · rintro q ⟨⟩
    exact ⟨hahead.le, hload, rfl⟩
  · intro r hr hrload
    rcases (Circle.ahead_le_succ_iff hj).mp hr with hr | rfl
    · exact hpri.le.trans (h.least r hr hrload)
    · rw [hlast]
  · rintro q r ⟨⟩ hrload hrpri
    rw [hahead]
    by_contra hlt
    have := h.least r (by omega) hrload
    omega

theorem Searched.skip (h : Searched proc p₀ j rp p n) (hj : j < NPROC)
    (hno : ¬((proc (step rp)).Loaded ∧ (proc (step rp)).p_pri.toInt < n)) :
    Searched proc p₀ (j + 1) (step rp) p n := by
  have hlast : step rp = Circle.advance p₀ (j + 1) := by rw [h.last, step_eq_advance]
  refine ⟨hlast, ?_, ?_, ?_, h.first⟩
  · intro hp
    obtain ⟨rfl, hnone⟩ := h.none_found hp
    refine ⟨rfl, fun r hr hload => ?_⟩
    rcases (Circle.ahead_le_succ_iff hj).mp hr with hr | rfl
    · exact hnone r hr hload
    · rw [← hlast] at hload
      exact hno ⟨hload, p_pri_lt _⟩
  · intro q hq
    obtain ⟨hahead, hload, hpri⟩ := h.found q hq
    exact ⟨hahead.trans (Nat.le_succ j), hload, hpri⟩
  · intro r hr hload
    rcases (Circle.ahead_le_succ_iff hj).mp hr with hr | rfl
    · exact h.least r hr hload
    · rw [← hlast] at hload ⊢
      exact not_lt.mp fun hlt => hno ⟨hload, hlt⟩

/-- The search goes on as it should to the end of the loop. -/
theorem Searched.search {i : ℕ} (h : Searched proc p₀ j rp p n) (hj : j + i ≤ NPROC) :
    Searched proc p₀ (j + i) (search proc i rp p n).1 (search proc i rp p n).2.1
      (search proc i rp p n).2.2 := by
  induction i generalizing j rp p n with
  | zero => exact h
  | succ i ih =>
    have hlt : j < NPROC := by omega
    rw [← Nat.succ_add_eq_add_succ] at hj ⊢
    unfold Dispatch.search
    by_cases htake : (proc (step rp)).Loaded ∧ (proc (step rp)).p_pri.toInt < n
    · simp only [if_pos htake]
      exact ih (h.take hlt htake.1 htake.2) hj
    · simp only [if_neg htake]
      exact ih (h.skip hlt htake) hj

/-! ## One pass -/

/-- What one pass does: it finds the whole table without a process that may run, and idles where it
was; or it goes on to the first of the processes of least priority. -/
theorem pass_cases (d : Dispatch) :
    (d.pass.1 = none ∧ (∀ r, ¬(d.proc r).Loaded) ∧
      d.pass.2 = { d with runrun := 0, p := some d.position }) ∨
    ∃ q, d.pass.1 = some q ∧ d.IsLeast q ∧ d.pass.2.p = some q ∧
      d.pass.2.curpri = (d.proc q).p_pri ∧
      ∀ r, d.IsLeast r → Circle.ahead d.position q ≤ Circle.ahead d.position r := by
  have hs := (searched_zero d.proc d.position).search (i := NPROC) (by simp)
  rw [Nat.zero_add] at hs
  unfold pass
  rw [← position]
  generalize search d.proc NPROC d.position none 128 = res at hs ⊢
  obtain ⟨rp, p, n⟩ := res
  obtain ⟨hlast, hnone, hfound, hleast, hfirst⟩ := hs
  rw [Circle.advance_card] at hlast
  cases p with
  | none =>
    refine Or.inl ⟨rfl, fun r => (hnone rfl).2 r (Circle.ahead_le _ r), ?_⟩
    change ({ d with runrun := 0, p := some rp } : Dispatch) = _
    rw [show rp = d.position from hlast]
  | some q =>
    obtain ⟨-, hload, hpri⟩ := hfound q rfl
    have hn : ∀ r, (d.proc r).Loaded → n ≤ (d.proc r).p_pri.toInt :=
      fun r hr => hleast r (Circle.ahead_le _ r) hr
    refine Or.inr ⟨q, rfl, ⟨hload, fun r hr => hpri.le.trans (hn r hr)⟩, rfl, ?_, ?_⟩
    · change BitVec.ofInt 8 n = _
      rw [← show _ = n from hpri, BitVec.ofInt_toInt]
    · intro r hr
      exact hfirst q r rfl hr.1 (le_antisymm ((hr.2 q hload).trans hpri.le) (hn r hr.1))

/-- The static pointer is not touched by anything but `swtch`. -/
theorem act_p {a : DispatchAct} (d : Dispatch) (ha : a ≠ .pass) :
    (d.act a).1 = none ∧ (d.act a).2.p = d.p := by
  cases a with
  | pass => exact absurd rfl ha
  | setrun => exact ⟨rfl, rfl⟩
  | setpri => exact ⟨rfl, rfl⟩
  | change => exact ⟨rfl, rfl⟩

/-- The processes of `S` are the ones of least priority. -/
theorem Least.isLeast_iff {d : Dispatch} {S : Finset Slot} (h : d.Least S) (hS : S.Nonempty)
    (q : Slot) : d.IsLeast q ↔ q ∈ S := by
  obtain ⟨n, hmem, hout⟩ := h
  obtain ⟨s, hs⟩ := hS
  constructor
  · rintro ⟨hload, hle⟩
    by_contra hq
    have hlow := hle s (hmem s hs).1
    rw [(hmem s hs).2] at hlow
    exact absurd (hout q hq hload) (not_lt.mpr hlow)
  · intro hq
    obtain ⟨hload, hpri⟩ := hmem q hq
    refine ⟨hload, fun r hr => ?_⟩
    rw [hpri]
    by_cases hrS : r ∈ S
    · exact (hmem r hrS).2.ge
    · exact (hout r hrS hr).le

/-! ## Runs -/

/-- While the processes of `S` are the ones of least priority, each selection is the next of them
from the selection before. -/
theorem selections_isChain {S : Finset Slot} (hS : S.Nonempty) (as : List DispatchAct)
    (d : Dispatch) (h : d.Steady S as) :
    (d.position :: d.selections as).IsChain (Circle.IsNext S) := by
  induction as generalizing d with
  | nil => exact List.isChain_singleton _
  | cons a as ih =>
    obtain ⟨ha, has⟩ := h
    have hrest := ih _ has
    unfold selections
    by_cases hpass : a = .pass
    · subst hpass
      have hleast := (ha rfl).isLeast_iff hS
      rcases d.pass_cases with ⟨-, hidle, -⟩ | ⟨q, hq, hmin, hp, -, hfirst⟩
      · obtain ⟨s, hs⟩ := hS
        exact absurd ((hleast s).mpr hs).1 (hidle s)
      · have hpos : d.pass.2.position = q := by rw [position, hp, Option.getD_some]
        change (_ :: (d.pass.1.toList ++ d.pass.2.selections as)).IsChain _
        rw [hq, Option.toList_some, List.singleton_append, List.isChain_cons_cons]
        refine ⟨⟨(hleast q).mp hmin, fun r hr => hfirst r ((hleast r).mpr hr)⟩, ?_⟩
        rw [← hpos]
        exact hrest
    · obtain ⟨hnone, hp⟩ := d.act_p hpass
      rw [hnone, Option.toList_none, List.nil_append]
      rwa [position, hp] at hrest

/-- `swtch` goes on to a process of least priority if one may run, and otherwise idles where it is;
and as long as `k` processes remain the ones of least priority, `k` selections in a row choose each
of them exactly once. -/
theorem swtch_round_robin (d : Dispatch) :
    ((∃ r, (d.proc r).Loaded) → ∃ q, d.pass.1 = some q ∧ d.IsLeast q) ∧
    ((∀ r, ¬(d.proc r).Loaded) → d.pass.1 = none ∧ d.pass.2.position = d.position) ∧
    ∀ (S : Finset Slot) (as : List DispatchAct), d.Steady S as →
      (d.selections as).length = S.card →
        (d.selections as).Nodup ∧ ∀ q, q ∈ d.selections as ↔ q ∈ S := by
  refine ⟨?_, ?_, ?_⟩
  · rintro ⟨r, hr⟩
    rcases d.pass_cases with ⟨-, hidle, -⟩ | ⟨q, hq, hmin, -⟩
    · exact absurd hr (hidle r)
    · exact ⟨q, hq, hmin⟩
  · intro hnone
    rcases d.pass_cases with ⟨hidle, -, hd⟩ | ⟨q, -, hmin, -⟩
    · refine ⟨hidle, ?_⟩
      rw [hd]
      rfl
    · exact absurd hmin.1 (hnone q)
  · intro S as hsteady hlen
    rcases S.eq_empty_or_nonempty with rfl | hS
    · rw [Finset.card_empty, List.length_eq_zero_iff] at hlen
      simp [hlen]
    · exact Circle.serves_each (selections_isChain hS as d hsteady) hlen

/-- Three processes of one priority take turns, in the order of the table. -/
example :
    let ready : ProcPri := ⟨.srun, { sload := true }, 100, 0, 0⟩
    let d : Dispatch :=
      ⟨fun q => if q ∈ [3, 7, 40] then ready else { ready with p_stat := .swait }, some 7, 0, 0⟩
    d.selections [.pass, .setrun 7, .pass, .pass, .pass] = [40, 3, 7, 40] := by
  decide +kernel

end Dispatch

end UnixV6
