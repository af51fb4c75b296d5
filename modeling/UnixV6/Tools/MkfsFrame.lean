import UnixV6.Tools.Mkfs
import UnixV6.Lib.Program

/-!
# What the functions of `mkfs` leave alone

The functions that make blocks and take them do not read the proto file, and number and record no
inode; the token reader changes nothing but the input. `Ends f m` says of a program `m` that it
keeps the part `f` of the state, and that it needs no fuel.
-/

namespace UnixV6.Mkfs

/-- The state without the output. -/
def St.noOutput (s : St) : St :=
  { s with
    s_nfree := 0
    s_free := fun _ => 0
    buf := Block.zero
    image := fun _ => Block.zero
    size := 0
    fsi := 0
    fso := 0 }

/-- The state without the input. -/
def St.noInput (s : St) : St := { s with proto := [], late := 0, string := [] }

/-- The program keeps what `f` shows of the state. -/
abbrev Keeps {α γ : Type} (f : St → γ) (m : M α) : Prop := Moves (fun s s' => f s' = f s) m

/-- One program after another. -/
theorem Keeps.bind {α β γ : Type} {f : St → γ} {m : M α} {k : α → M β} (hm : Keeps f m)
    (hk : ∀ a, Keeps f (k a)) : Keeps f (m >>= k) :=
  Moves.bind (fun _ _ _ h₁ h₂ => h₂.trans h₁) hm hk

/-- The program keeps what `f` shows of the state, and it does not stop without fuel. -/
structure Ends {α γ : Type} (f : St → γ) (m : M α) : Prop where
  keeps : Keeps f m
  fuel : ∀ s s', m s ≠ .error .fuel s'

namespace Ends

variable {α β γ δ : Type} {f : St → γ} {m : M α} {k : α → M β}

/-- What is kept implies less. -/
theorem imp {f' : St → δ} (h : Ends f m) (g : γ → δ) (hg : ∀ s, g (f s) = f' s) : Ends f' m :=
  ⟨h.keeps.imp fun s s' hs => by rw [← hg, ← hg, hs], h.fuel⟩

theorem pure (a : α) : Ends f (Pure.pure a : M α) := ⟨fun _ => rfl, nofun⟩

theorem throw {e : Stop} (he : e ≠ .fuel) : Ends f (throw e : M α) :=
  ⟨fun _ => rfl, fun _ _ h => he (EStateM.Result.error.inj h).1⟩

theorem get : Ends f (get : M St) := ⟨fun _ => rfl, nofun⟩

theorem modify {g : St → St} (h : ∀ s, f (g s) = f s) : Ends f (modify g : M Unit) := ⟨h, nofun⟩

theorem bind (hm : Ends f m) (hk : ∀ a, Ends f (k a)) : Ends f (m >>= k) := by
  refine ⟨Keeps.bind hm.keeps fun a => (hk a).keeps, fun s s' h => ?_⟩
  cases hs : m s with
  | ok a s₁ =>
    rw [EStateM.bind_ok hs] at h
    exact (hk a).fuel s₁ s' h
  | error e s₁ =>
    rw [EStateM.bind_error hs] at h
    obtain ⟨rfl, -⟩ := EStateM.Result.error.inj h
    exact hm.fuel s s₁ hs

/-- Both branches of a decision. -/
theorem ite {c : Prop} [Decidable c] {m₁ m₂ : M α} (h₁ : Ends f m₁) (h₂ : Ends f m₂) :
    Ends f (if c then m₁ else m₂) := by
  split
  · exact h₁
  · exact h₂

end Ends

variable {E : Env}

/-! ## Values of a token -/

variable {γ : Type} {f : St → γ}

theorem ends_char (i : ℕ) : Ends f (char i) := ⟨fun _ => rfl, nofun⟩

theorem ends_number (n : BitVec 16) (cs : List Byte) : Ends f (number n cs) := by
  induction cs generalizing n with
  | nil => exact .pure n
  | cons c cs ih => exact .ite (.throw (by decide)) (ih _)

theorem ends_gmode (c : Byte) (ms : List (Byte × BitVec 16)) : Ends f (gmode c ms) := by
  unfold gmode
  split
  · exact .pure _
  · exact .ite (.pure 0) (.throw (by decide))

theorem ends_digit (c : Byte) : Ends f (digit c) := .ite (.throw (by decide)) (.pure _)

theorem ends_mode : Ends f mode := by
  refine (ends_char 0).bind fun _ => (ends_gmode _ _).bind fun _ => ?_
  refine (ends_char 1).bind fun _ => (ends_gmode _ _).bind fun _ => ?_
  refine (ends_char 2).bind fun _ => (ends_gmode _ _).bind fun _ => ?_
  refine (ends_char 3).bind fun _ => (ends_digit _).bind fun _ => ?_
  refine (ends_char 4).bind fun _ => (ends_digit _).bind fun _ => ?_
  exact (ends_char 5).bind fun _ => (ends_digit _).bind fun _ => .pure _

/-! ## Blocks -/

theorem ends_rdfs (bno : ℤ) : Ends St.noOutput (rdfs E bno) := by
  refine ⟨fun s => ?_, fun s s' => ?_⟩ <;> unfold rdfs <;> dsimp only <;> split
  · rfl
  · rfl
  · nofun
  · nofun

theorem ends_wtfs (bno : ℤ) (b : Block) : Ends St.noOutput (wtfs E bno b) := ⟨fun _ => rfl, nofun⟩

theorem ends_pop : Ends St.noOutput pop := by
  refine ⟨fun s => ?_, fun s s' => ?_⟩ <;> unfold pop <;> dsimp only <;> split
  · rfl
  · rfl
  · nofun
  · nofun

theorem ends_push (bno : ℤ) : Ends St.noOutput (push bno) := by
  refine ⟨fun s => ?_, fun s s' => ?_⟩ <;> unfold push <;> split
  · rfl
  · rfl
  · nofun
  · nofun

theorem ends_alloc : Ends St.noOutput (alloc E) := by
  refine ends_pop.bind fun bno => .ite (.throw (by decide)) ?_
  refine Ends.get.bind fun s => .ite ((ends_rdfs bno).bind fun _ => ?_) (.pure bno)
  exact Ends.bind (.modify fun _ => rfl) fun _ => .pure bno

theorem ends_bfree (bno : ℤ) : Ends St.noOutput (bfree E bno) := by
  refine Ends.get.bind fun s => .ite ?_ (ends_push bno)
  refine Ends.bind (.modify fun _ => rfl) fun _ => Ends.get.bind fun s => ?_
  refine (ends_wtfs bno s.buf).bind fun _ => ?_
  exact Ends.bind (.modify fun _ => rfl) fun _ => ends_push bno

/-- A loop. -/
theorem ends_each {α : Type} {f : α → M Unit} (hf : ∀ x, Ends St.noOutput (f x)) (xs : List α) :
    Ends St.noOutput (each f xs) := by
  induction xs with
  | nil => exact .pure ()
  | cons x xs ih => exact (hf x).bind fun _ => ih

theorem ends_bflist (f_n f_m : ℕ) : Ends St.noOutput (bflist E f_n f_m) :=
  (ends_bfree 0).bind fun _ => Ends.get.bind fun _ => ends_each (fun _ => ends_bfree _) _

theorem ends_newblk (b : Blocks) : Ends St.noOutput (newblk E b) :=
  ends_alloc.bind fun bno => (ends_wtfs bno b.db).bind fun _ =>
    .ite (.throw (by decide)) (.pure _)

/-- An entry of a directory is made. -/
theorem ends_entry (ino : BitVec 16) (str : List Byte) (b : Blocks) :
    Ends St.noOutput (entry E ino str b) :=
  .ite (ends_newblk _) (.pure _)

/-- The bytes of a file are copied. -/
theorem ends_copyBlocks (css : List (List Byte)) (ip : Inode) (b : Blocks) :
    Ends St.noOutput (copyBlocks E css ip b) := by
  induction css generalizing ip b with
  | nil => exact .pure _
  | cons cs css ih => exact (ends_newblk _).bind fun b => ih _ b

theorem ends_addresses (ip : Inode) (b : Blocks) : Ends St.noOutput (addresses E ip b) := by
  refine (Ends.ite (ends_newblk b) (.pure b)).bind fun b => .ite ?_ (.pure _)
  exact ends_alloc.bind fun dbc => (ends_wtfs dbc b.ib).bind fun _ => .pure _

/-! ## The token reader -/

theorem keeps_getch : Keeps St.noInput (getch E) := by
  intro s
  unfold getch
  split <;> rfl

theorem keeps_comment (fuel : ℕ) : Keeps St.noInput (comment E fuel) := by
  induction fuel with
  | zero => exact fun _ => rfl
  | succ fuel ih => exact keeps_getch.bind fun _ => .ite (fun _ => rfl) ih

theorem keeps_skip (fuel : ℕ) : Keeps St.noInput (skip E fuel) := by
  induction fuel with
  | zero => exact fun _ => rfl
  | succ fuel ih =>
    refine keeps_getch.bind fun c => .ite ih (.ite (fun _ => rfl) ?_)
    exact .ite ((keeps_comment fuel).bind fun _ => ih) fun _ => rfl

/-- Collecting a word changes nothing but the input. -/
theorem keeps_collect (fuel : ℕ) (t : List Byte) (c : Byte) :
    Keeps St.noInput (collect E fuel t c) := by
  induction fuel generalizing t c with
  | zero => exact fun _ => rfl
  | succ fuel ih =>
    exact .ite (fun _ => rfl) (keeps_getch.bind fun c' => .ite (fun _ => rfl) (ih _ c'))

theorem keeps_getstr (fuel : ℕ) : Keeps St.noInput (getstr E fuel) :=
  (keeps_skip fuel).bind fun c => (keeps_collect fuel [] c).bind fun _ => fun _ => rfl

theorem keeps_getnum (fuel : ℕ) : Keeps St.noInput (getnum E fuel) :=
  (keeps_getstr fuel).bind fun _ => (Ends.get.bind fun _ => ends_number 0 _).keeps

end UnixV6.Mkfs
