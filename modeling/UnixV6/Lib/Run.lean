import Mathlib

/-!
# Runs of a system whose steps may be refused

A system is a function `step s a : Option σ`, with `none` for an action that cannot happen in `s`.
`Reachable step ok s₀` are the states of the runs from `s₀` in which every step meets the condition
`ok`. The two rules are the induction over a run: once for an invariant of the system itself, and
once for a system that is described by an abstract transition relation.
-/

variable {σ α τ : Type*}

/-- The states of the runs from `s₀` whose every step meets `ok`. -/
inductive Reachable (step : σ → α → Option σ) (ok : σ → α → Prop) (s₀ : σ) : σ → Prop
  /-- The run without steps. -/
  | refl : Reachable step ok s₀ s₀
  /-- One more step. -/
  | tail {s s' : σ} {a : α} (hs : Reachable step ok s₀ s) (ha : ok s a) (h : step s a = some s') :
      Reachable step ok s₀ s'

/-- The state after the actions `as`, if none is refused. -/
def runSteps (step : σ → α → Option σ) : List α → σ → Option σ
  | [], s => some s
  | a :: as, s => (step s a).bind (runSteps step as)

/-- The same, if every action also passes a check. -/
def checkedSteps (step : σ → α → Option σ) (check : σ → α → Bool) : List α → σ → Option σ
  | [], s => some s
  | a :: as, s => if check s a then (step s a).bind (checkedSteps step check as) else none

/-- A checked run is a run. -/
theorem runSteps_of_checkedSteps {step : σ → α → Option σ} {check : σ → α → Bool} {as : List α}
    {s s' : σ} (h : checkedSteps step check as s = some s') : runSteps step as s = some s' := by
  induction as generalizing s with
  | nil => exact h
  | cons a as ih =>
    obtain ⟨-, h⟩ := Option.ite_none_right_eq_some.mp h
    obtain ⟨s₁, h₁, h⟩ := Option.bind_eq_some_iff.mp h
    exact Option.bind_eq_some_iff.mpr ⟨s₁, h₁, ih h⟩

namespace Reachable

variable {step : σ → α → Option σ} {ok : σ → α → Prop} {s₀ s : σ}

/-- What holds at the start and is preserved by every step holds throughout. -/
theorem invariant {P : σ → Prop} (h : Reachable step ok s₀ s) (h₀ : P s₀)
    (hstep : ∀ s a s', P s → ok s a → step s a = some s' → P s') : P s := by
  induction h with
  | refl => exact h₀
  | tail _ ha h ih => exact hstep _ _ _ ih ha h

/-- A run of the system maps to a run of the abstract relation `next`, so an invariant `I` of
`next` holds throughout; the concrete half `W` of the argument may use `I`. -/
theorem refine (W : σ → Prop) (I : τ → Prop) (abs : σ → τ) (next : τ → τ → Prop)
    (h : Reachable step ok s₀ s) (hW : W s₀) (hI : I (abs s₀))
    (hnext : ∀ t t', I t → next t t' → I t')
    (hstep : ∀ s a s', W s → I (abs s) → ok s a → step s a = some s' →
      W s' ∧ Relation.ReflTransGen next (abs s) (abs s')) :
    W s ∧ I (abs s) := by
  refine h.invariant (P := fun s => W s ∧ I (abs s)) ⟨hW, hI⟩ ?_
  rintro s a s' ⟨hW, hI⟩ ha hs
  obtain ⟨hW', hrun⟩ := hstep s a s' hW hI ha hs
  refine ⟨hW', ?_⟩
  clear hs hW'
  generalize abs s' = t at hrun ⊢
  induction hrun with
  | refl => exact hI
  | tail _ hnt ih => exact hnext _ _ ih hnt

/-- One run after another. -/
theorem trans {s' : σ} (h : Reachable step ok s₀ s) (h' : Reachable step ok s s') :
    Reachable step ok s₀ s' := by
  induction h' with
  | refl => exact h
  | tail _ ha hstep ih => exact ih.tail ha hstep

/-- The state that a list of actions leads to is reachable, if every action meets the condition in
every state. -/
theorem of_runSteps_ok {as : List α} {s' : σ} (hs : Reachable step ok s₀ s)
    (hok : ∀ a ∈ as, ∀ s, ok s a) (h : runSteps step as s = some s') :
    Reachable step ok s₀ s' := by
  induction as generalizing s with
  | nil =>
    obtain rfl : s = s' := by simpa [runSteps] using h
    exact hs
  | cons a as ih =>
    obtain ⟨s₁, h₁, h⟩ := Option.bind_eq_some_iff.mp h
    refine ih (hs.tail (hok a List.mem_cons_self s) h₁) (fun b hb => hok b ?_) h
    exact List.mem_cons_of_mem a hb

/-- The state that a list of checked actions leads to is reachable, if the check implies the
condition. -/
theorem of_checkedSteps {check : σ → α → Bool} {as : List α} {s' : σ} (hs : Reachable step ok s₀ s)
    (hcheck : ∀ s a, check s a = true → ok s a) (h : checkedSteps step check as s = some s') :
    Reachable step ok s₀ s' := by
  induction as generalizing s with
  | nil =>
    obtain rfl : s = s' := by simpa [checkedSteps] using h
    exact hs
  | cons a as ih =>
    obtain ⟨ha, h⟩ := Option.ite_none_right_eq_some.mp h
    obtain ⟨s₁, h₁, h⟩ := Option.bind_eq_some_iff.mp h
    exact ih (hs.tail (hcheck s a ha) h₁) h

/-- The state that a list of actions leads to is reachable. -/
theorem of_runSteps {as : List α} {s' : σ} (hs : Reachable step (fun _ _ => True) s₀ s)
    (h : runSteps step as s = some s') : Reachable step (fun _ _ => True) s₀ s' :=
  hs.of_runSteps_ok (fun _ _ _ => trivial) h

end Reachable
