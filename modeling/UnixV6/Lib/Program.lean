import Mathlib

/-!
# Programs with a state, which may stop

A program of type `EStateM ε σ α` ends with a value or stops with an error, and keeps its state in
both cases. `Moves R m` says that `m` leads from every state to one that is related to it by `R`;
`Triple P m Q S` that it ends with a value and in a state that satisfy `Q`, or stops in one that
satisfies `S`, when it starts in one that satisfies `P`. Each rule is about one way to put programs
together.
-/

variable {ε σ α β : Type}

/-- The state in which a program ends or stops. -/
def EStateM.Result.state : EStateM.Result ε σ α → σ
  | .ok _ s => s
  | .error _ s => s

/-- The state after a program that comes to its end. -/
@[simp]
theorem EStateM.Result.state_ok (a : α) (s : σ) :
    (EStateM.Result.ok a s : Result ε σ α).state = s :=
  rfl

/-- The state after a program that stops. -/
@[simp]
theorem EStateM.Result.state_error (e : ε) (s : σ) :
    (EStateM.Result.error e s : Result ε σ α).state = s :=
  rfl

/-- The program has ended with a value and in a state that pass the test. -/
def EStateM.Result.okWith (test : α → σ → Bool) : Result ε σ α → Bool
  | .ok a s => test a s
  | .error _ _ => false

/-- A result that has been tested. -/
theorem EStateM.Result.exists_of_okWith {test : α → σ → Bool} {r : Result ε σ α}
    (h : r.okWith test = true) : ∃ a s, r = .ok a s ∧ test a s = true := by
  cases r with
  | ok a s => exact ⟨a, s, rfl, h⟩
  | error e s => cases h

/-- The first program comes to its end, and the second goes on. -/
theorem EStateM.bind_ok {m : EStateM ε σ α} {f : α → EStateM ε σ β} {a : α} {s s' : σ}
    (h : m s = .ok a s') : (m >>= f) s = f a s' := by
  change EStateM.bind m f s = _
  unfold EStateM.bind
  rw [h]

/-- The first program stops, and so does the whole. -/
theorem EStateM.bind_error {m : EStateM ε σ α} {f : α → EStateM ε σ β} {e : ε} {s s' : σ}
    (h : m s = .error e s') : (m >>= f) s = .error e s' := by
  change EStateM.bind m f s = _
  unfold EStateM.bind
  rw [h]

/-! ## Where a program leads -/

/-- From every state the program leads to one that is related to it. -/
def Moves (R : σ → σ → Prop) (m : EStateM ε σ α) : Prop := ∀ s, R s (m s).state

namespace Moves

variable {R R' : σ → σ → Prop} {m : EStateM ε σ α} {f : α → EStateM ε σ β}

theorem imp (h : Moves R m) (himp : ∀ s s', R s s' → R' s s') : Moves R' m :=
  fun s => himp _ _ (h s)

theorem pure (hrefl : ∀ s, R s s) (a : α) : Moves R (Pure.pure a : EStateM ε σ α) := hrefl

theorem throw (hrefl : ∀ s, R s s) (e : ε) : Moves R (throw e : EStateM ε σ α) := hrefl

theorem get (hrefl : ∀ s, R s s) : Moves R (get : EStateM ε σ σ) := hrefl

theorem modify {g : σ → σ} (h : ∀ s, R s (g s)) : Moves R (modify g : EStateM ε σ Unit) := h

/-- One program after another. -/
theorem bind (htrans : ∀ s₁ s₂ s₃, R s₁ s₂ → R s₂ s₃ → R s₁ s₃) (hm : Moves R m)
    (hf : ∀ a, Moves R (f a)) : Moves R (m >>= f) := by
  intro s
  have hs := hm s
  cases h : m s with
  | ok a s' =>
    rw [EStateM.bind_ok h]
    rw [h] at hs
    exact htrans _ _ _ hs (hf a s')
  | error e s' =>
    rw [EStateM.bind_error h]
    rwa [h] at hs

/-- Both branches of a decision. -/
theorem ite {c : Prop} [Decidable c] {m₁ m₂ : EStateM ε σ α} (h₁ : Moves R m₁) (h₂ : Moves R m₂) :
    Moves R (if c then m₁ else m₂) := by
  split
  · exact h₁
  · exact h₂

end Moves

/-! ## Conditions before and after -/

/-- A program that starts in a state with `P` ends with `Q`, or stops with `S`. -/
def Triple (P : σ → Prop) (m : EStateM ε σ α) (Q : α → σ → Prop) (S : σ → Prop) : Prop :=
  ∀ s, P s → (∀ a s', m s = .ok a s' → Q a s') ∧ ∀ e s', m s = .error e s' → S s'

namespace Triple

variable {P P' : σ → Prop} {Q Q' : α → σ → Prop} {R : β → σ → Prop} {S S' : σ → Prop}
  {m : EStateM ε σ α} {f : α → EStateM ε σ β}

/-- The rule of consequence. -/
theorem imp (h : Triple P m Q S) (hpre : ∀ s, P' s → P s) (hpost : ∀ a s, Q a s → Q' a s)
    (hstop : ∀ s, S s → S' s) : Triple P' m Q' S' := by
  intro s hs
  obtain ⟨hok, herror⟩ := h s (hpre s hs)
  exact ⟨fun a s' hm => hpost a s' (hok a s' hm), fun e s' hm => hstop s' (herror e s' hm)⟩

theorem post (h : Triple P m Q S) (hpost : ∀ a s, Q a s → Q' a s) : Triple P m Q' S :=
  h.imp (fun _ hs => hs) hpost fun _ hs => hs

theorem stop (h : Triple P m Q S) (hstop : ∀ s, S s → S' s) : Triple P m Q S' :=
  h.imp (fun _ hs => hs) (fun _ _ hs => hs) hstop

/-- What holds of the value in any case. -/
theorem and (h : Triple P m Q S) (h' : Triple (fun _ => True) m Q' S') :
    Triple P m (fun a s => Q a s ∧ Q' a s) S := by
  intro s hs
  exact ⟨fun a s' hm => ⟨(h s hs).1 a s' hm, (h' s trivial).1 a s' hm⟩, (h s hs).2⟩

/-- What does not depend on the state is a hypothesis. -/
theorem given {p : Prop} (h : p → Triple P m Q S) : Triple (fun s => P s ∧ p) m Q S :=
  fun s hs => h hs.2 s hs.1

/-- What is only needed in one case is only proved there. -/
theorem guard {p : Prop} (h : p → Triple P m Q fun _ => True) :
    Triple (fun s => p → P s) m (fun a s => p → Q a s) fun _ => True :=
  fun s hs => ⟨fun a s' hok hp => (h hp s (hs hp)).1 a s' hok, fun _ _ _ => trivial⟩

/-- What a program leaves alone still holds. -/
theorem frame {F : σ → Prop} {R : σ → σ → Prop} (h : Triple P m Q S) (hm : Moves R m)
    (hR : ∀ s s', R s s' → F s → F s') :
    Triple (fun s => P s ∧ F s) m (fun a s => Q a s ∧ F s) S := by
  rintro s ⟨hs, hF⟩
  refine ⟨fun a s' hok => ⟨(h s hs).1 a s' hok, ?_⟩, (h s hs).2⟩
  have hmoves := hR _ _ (hm s) hF
  rwa [hok] at hmoves

/-- It is enough to look at every state by itself. -/
theorem of_forall (h : ∀ s₀, P s₀ → Triple (fun s => s = s₀) m Q S) : Triple P m Q S :=
  fun s hs => h s hs s rfl

/-- `get`, when the state is known. -/
theorem get_bind {s₀ : σ} {f : σ → EStateM ε σ β} (h : Triple (fun s => s = s₀) (f s₀) R S) :
    Triple (fun s => s = s₀) (MonadState.get >>= f) R S := by
  rintro s rfl
  exact h s rfl

/-- A known state is changed. -/
theorem modify_bind {s₀ : σ} {g : σ → σ} {f : Unit → EStateM ε σ β}
    (h : Triple (fun s => s = g s₀) (f ()) R S) :
    Triple (fun s => s = s₀) (modifyGet (fun s => ((), g s)) >>= f) R S := by
  rintro s rfl
  exact h (g s) rfl

/-- A program that only moves along a relation keeps what the relation keeps. -/
theorem of_moves {R : σ → σ → Prop} (h : Moves R m) (hP : ∀ s s', R s s' → P s → P s') :
    Triple P m (fun _ => P) P := by
  intro s hs
  have hmoves := hP _ _ (h s) hs
  constructor
  · intro a s' hm
    rwa [hm] at hmoves
  · intro e s' hm
    rwa [hm] at hmoves

/-- A value is returned. -/
theorem pure {a : α} (h : ∀ s, P s → Q a s) : Triple P (Pure.pure a : EStateM ε σ α) Q S := by
  intro s hs
  constructor
  · rintro b s' ⟨⟩
    exact h s hs
  · rintro e s' ⟨⟩

theorem throw {e : ε} (h : ∀ s, P s → S s) : Triple P (throw e : EStateM ε σ α) Q S := by
  intro s hs
  constructor
  · rintro b s' ⟨⟩
  · rintro e s' ⟨⟩
    exact h s hs

/-- The state is looked at. -/
theorem get {Q : σ → σ → Prop} (h : ∀ s, P s → Q s s) : Triple P (get : EStateM ε σ σ) Q S := by
  intro s hs
  constructor
  · rintro b s' ⟨⟩
    exact h s hs
  · rintro e s' ⟨⟩

theorem get_self : Triple P (MonadState.get : EStateM ε σ σ) (fun _ => P) S :=
  get fun _ hs => hs

theorem any : Triple (fun _ => True) m (fun _ _ => True) fun _ => True :=
  fun _ _ => ⟨fun _ _ _ => trivial, fun _ _ _ => trivial⟩

/-- The state is changed. -/
theorem modify {g : σ → σ} {Q : Unit → σ → Prop} (h : ∀ s, P s → Q () (g s)) :
    Triple P (modify g : EStateM ε σ Unit) Q S := by
  intro s hs
  constructor
  · rintro b s' ⟨⟩
    exact h s hs
  · rintro e s' ⟨⟩

/-- One program after another. -/
theorem bind (hm : Triple P m Q S) (hf : ∀ a, Triple (Q a) (f a) R S) : Triple P (m >>= f) R S := by
  intro s hs
  obtain ⟨hok, herror⟩ := hm s hs
  cases h : m s with
  | ok a s₁ =>
    rw [EStateM.bind_ok h]
    exact hf a s₁ (hok a s₁ h)
  | error e s₁ =>
    rw [EStateM.bind_error h]
    constructor
    · rintro b s' ⟨⟩
    · rintro e s' ⟨⟩
      exact herror _ _ h

/-- What comes next may use what is known of the value. -/
theorem bind_value {p : α → Prop} (hm : Triple (fun _ => True) m (fun a _ => p a) S)
    (hf : ∀ a, p a → Triple (fun _ => True) (f a) R S) : Triple (fun _ => True) (m >>= f) R S :=
  hm.bind fun a s ha => hf a ha s trivial

/-- Both branches of a decision. -/
theorem ite {c : Prop} [Decidable c] {m₁ m₂ : EStateM ε σ α} (h₁ : c → Triple P m₁ Q S)
    (h₂ : ¬c → Triple P m₂ Q S) : Triple P (if c then m₁ else m₂) Q S := by
  split
  · exact h₁ ‹_›
  · exact h₂ ‹_›

end Triple
