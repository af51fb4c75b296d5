import UnixV6.Tools.MkfsFrame

/-!
# `mkfs` and the end of its proto file

`getchar` does not look at what `read` returns. As long as it is not called behind the end of the
proto file, nothing depends on what its variable holds, and every loop takes characters away; that
is `inText`. When it is called there, the token reader is in one of its three loops, and each of
them goes on without an end for some character; that is `beyond`.
-/

open Function

namespace UnixV6.Mkfs

/-- The same surroundings, with another variable `c` of `getchar`. -/
def Env.withEof (E : Env) (g : ℕ → Byte) : Env := { E with eof := g }

theorem Env.withEof_files (E : Env) (g : ℕ → Byte) : (E.withEof g).files = E.files := rfl

/-- Copying a file does not read the input. -/
theorem copyBlocks_withEof (E : Env) (g : ℕ → Byte) (css : List (List Byte)) (ip : Inode)
    (b : Blocks) : copyBlocks (E.withEof g) css ip b = copyBlocks E css ip b := by
  induction css generalizing ip b with
  | nil => rfl
  | cons cs css ih =>
    unfold copyBlocks
    simp only [ih]
    rfl

/-! ## What is not about the input -/

/-- The number of calls behind the end does not go back. -/
def Later (s s' : St) : Prop := s.late ≤ s'.late

theorem Later.refl (s : St) : Later s s := le_rfl

theorem Later.trans (s₁ s₂ s₃ : St) (h₁ : Later s₁ s₂) (h₂ : Later s₂ s₃) : Later s₁ s₃ :=
  le_trans h₁ h₂

/-- The program does not read the proto file, and it does not stop without fuel. -/
abbrev Quiet {α : Type} (m : M α) : Prop := Ends (fun s => (s.proto, s.late)) m

theorem Ends.quiet {α : Type} {m : M α} (h : Ends St.noOutput m) : Quiet m :=
  h.imp (fun s => (s.proto, s.late)) fun _ => rfl

theorem Ends.later {α : Type} {m : M α} (h : Quiet m) : Moves Later m :=
  fun s => (congrArg Prod.snd (h.keeps s)).ge

variable {E : Env}

theorem quiet_nextIno : Quiet nextIno :=
  Ends.bind (.modify fun _ => rfl) fun _ => Ends.get.bind fun s =>
    .ite (.throw (by decide)) (.pure s.ino)

theorem quiet_place (n : ℕ) (ip : Inode) : Quiet (place E n ip) := by
  refine .ite (.throw (by decide)) ((ends_rdfs _).quiet.bind fun _ => ?_)
  exact Ends.bind (.modify fun _ => rfl) fun _ => Ends.get.bind fun s => (ends_wtfs _ s.buf).quiet

/-! ## What never goes back -/

theorem later_getch : Moves Later (getch E) := by
  intro s
  unfold getch
  split
  · exact le_rfl
  · exact Nat.le_succ s.late

theorem later_comment (fuel : ℕ) : Moves Later (comment E fuel) := by
  induction fuel with
  | zero => exact .throw Later.refl Stop.fuel
  | succ fuel ih =>
    exact .bind Later.trans later_getch fun _ => .ite (.pure Later.refl ()) ih

theorem later_skip (fuel : ℕ) : Moves Later (skip E fuel) := by
  induction fuel with
  | zero => exact .throw Later.refl Stop.fuel
  | succ fuel ih =>
    refine .bind Later.trans later_getch fun c => .ite ih (.ite (.throw Later.refl Stop.exit) ?_)
    exact .ite (.bind Later.trans (later_comment fuel) fun _ => ih) (.pure Later.refl c)

/-- A word may end behind the end of the input. -/
theorem later_collect (fuel : ℕ) (t : List Byte) (c : Byte) : Moves Later (collect E fuel t c) := by
  induction fuel generalizing t c with
  | zero => exact .throw Later.refl Stop.fuel
  | succ fuel ih =>
    refine .ite (.throw Later.refl Stop.bounds) (.bind Later.trans later_getch fun c' => ?_)
    exact .ite (.pure Later.refl _) (ih _ c')

/-! ## How the text is read -/

/-- A program for each variable `c` of `getchar` and each fuel. -/
abbrev Reader (α : Type) : Type := (ℕ → Byte) → ℕ → M α

/-- What becomes of the program `m` from `s` on with a fuel of at least `N`; when it comes to an
end, it has taken `d` characters or more. -/
inductive Reads {α : Type} (m : Reader α) (N d : ℕ) (s : St) : Prop
  /-- It does not read behind the end of the proto file. -/
  | inText (r : EStateM.Result Stop St α) (same : ∀ g fuel, N ≤ fuel → m g fuel s = r)
      (late : r.state.late = 0) (fuel : ∀ s', r ≠ .error .fuel s')
      (shorter : ∀ a s', r = .ok a s' → s'.proto.length + d ≤ s.proto.length)
  /-- It does, and for some `c` it neither comes to an end nor exits. -/
  | beyond (late : ∀ g fuel, N ≤ fuel → 0 < (m g fuel s).state.late) (c : Byte)
      (stuck : ∀ fuel, N ≤ fuel → ∃ e s', m (fun _ => c) fuel s = .error e s' ∧ e ≠ .exit)

namespace Reads

variable {α β : Type} {m m' : Reader α} {f : (ℕ → Byte) → ℕ → α → M β} {N d k : ℕ} {s : St}

/-- Programs that agree from fuel `N` on read the same. -/
theorem congr (h : Reads m' N d s) (he : ∀ g fuel, N ≤ fuel → m g fuel s = m' g fuel s) :
    Reads m N d s := by
  cases h with
  | inText r same late fuel shorter =>
    exact .inText r (fun g fuel h => (he g fuel h).trans (same g fuel h)) late fuel shorter
  | beyond late c stuck =>
    refine .beyond (fun g fuel h => ?_) c fun fuel h => ?_
    · rw [he g fuel h]
      exact late g fuel h
    · rw [he _ fuel h]
      exact stuck fuel h

/-- A program that gets its fuel from another one. -/
theorem shift {N' : ℕ} (φ : ℕ → ℕ) (h : Reads m N d s) (hφ : ∀ fuel, N' ≤ fuel → N ≤ φ fuel) :
    Reads (fun g fuel => m g (φ fuel)) N' d s := by
  cases h with
  | inText r same late fuel shorter =>
    exact .inText r (fun g fuel h => same g _ (hφ fuel h)) late fuel shorter
  | beyond late c stuck =>
    exact .beyond (fun g fuel h => late g _ (hφ fuel h)) c fun fuel h => stuck _ (hφ fuel h)

theorem weaken (h : Reads m N d s) (hd : k ≤ d) : Reads m N k s := by
  cases h with
  | inText r same late fuel shorter =>
    refine .inText r same late fuel fun a s' hr => ?_
    have := shorter a s' hr
    omega
  | beyond late c stuck => exact .beyond late c stuck

/-- A program that does not read the input. -/
theorem quiet {m₀ : M α} (hm : Quiet m₀) (hs : s.late = 0) (he : ∀ g fuel, m g fuel = m₀) :
    Reads m N 0 s := by
  have hproto := congrArg Prod.fst (hm.keeps s)
  have hlate := congrArg Prod.snd (hm.keeps s)
  refine .inText (m₀ s) (fun g fuel _ => by rw [he]) (hlate.trans hs) (hm.fuel s) fun a s' hr => ?_
  rw [hr] at hproto
  exact (congrArg List.length hproto).le

/-- One program after another: the bytes that they read add up. -/
theorem bind (hm : Reads m N d s) (hlater : ∀ g fuel a, Moves Later (f g fuel a))
    (hf : ∀ a s', s'.late = 0 → s'.proto.length + d ≤ s.proto.length →
      Reads (fun g fuel => f g fuel a) N k s') :
    Reads (fun g fuel => m g fuel >>= f g fuel) N (d + k) s := by
  cases hm with
  -- the first part gets to the end of the file
  | beyond late c stuck =>
    refine .beyond (fun g fuel h => ?_) c fun fuel h => ?_
    · have hpos := late g fuel h
      cases hr : m g fuel s with
      | ok a s' =>
        rw [hr] at hpos
        rw [EStateM.bind_ok hr]
        exact hpos.trans_le (hlater g fuel a s')
      | error e s' =>
        rw [hr] at hpos
        rwa [EStateM.bind_error hr]
    · obtain ⟨e, s', he, hexit⟩ := stuck fuel h
      exact ⟨e, s', EStateM.bind_error he, hexit⟩
  -- the first part stays within the text: the second part decides
  | inText r same late fuel shorter =>
    cases r with
    | error e s' =>
      have heq := fun g fuel (h : N ≤ fuel) => EStateM.bind_error (f := f g fuel) (same g fuel h)
      refine .inText (.error e s') heq late ?_ nofun
      rintro s'' ⟨⟩
      exact fuel s' rfl
    | ok a s' =>
      have hshort := shorter a s' rfl
      have heq : ∀ g fuel, N ≤ fuel → (m g fuel >>= f g fuel) s = f g fuel a s' :=
        fun g fuel h => EStateM.bind_ok (same g fuel h)
      cases hf a s' late hshort with
      | inText r' same' late' fuel' shorter' =>
        refine .inText r' (fun g fuel h => (heq g fuel h).trans (same' g fuel h)) late' fuel' ?_
        intro b s'' hb
        have := shorter' b s'' hb
        omega
      | beyond late' c stuck' =>
        refine .beyond (fun g fuel h => ?_) c fun fuel h => ?_
        · rw [heq g fuel h]
          exact late' g fuel h
        · rw [heq _ fuel h]
          exact stuck' fuel h

/-- Both branches of a decision. -/
theorem ite {c : Prop} [Decidable c] {m₁ m₂ : Reader α} (h₁ : c → Reads m₁ N d s)
    (h₂ : ¬c → Reads m₂ N d s) :
    Reads (fun g fuel => if c then m₁ g fuel else m₂ g fuel) N d s := by
  split
  · exact h₁ ‹_›
  · exact h₂ ‹_›

end Reads

/-! ## The token reader -/

variable {s : St} {N : ℕ}

/-- The next byte of the input. -/
theorem getch_cons {c : Byte} {cs : List Byte} (h : s.proto = c :: cs) :
    getch E s = .ok c { s with proto := cs } := by
  unfold getch
  rw [h]

theorem getch_nil (h : s.proto = []) :
    getch E s = .ok (E.eof s.late) { s with late := s.late + 1 } := by
  unfold getch
  rw [h]

/-- Behind the end, a program that first calls `getchar` has been late. -/
theorem late_getch {α : Type} {f : Byte → M α} (h : s.proto = []) (hf : ∀ c, Moves Later (f c)) :
    0 < ((getch E >>= f) s).state.late := by
  rw [EStateM.bind_ok (getch_nil h)]
  exact (Nat.succ_pos s.late).trans_le (hf _ { s with late := s.late + 1 })

/-- A comment at the end of the input never ends, if nothing but blanks comes. -/
theorem comment_stuck (fuel : ℕ) (h : s.proto = []) :
    ∃ s', comment (E.withEof fun _ => 32) fuel s = .error .fuel s' := by
  induction fuel generalizing s with
  | zero => exact ⟨s, rfl⟩
  | succ fuel ih =>
    obtain ⟨s', hs'⟩ := ih (s := { s with late := s.late + 1 }) h
    refine ⟨s', ?_⟩
    unfold comment
    rw [EStateM.bind_ok (getch_nil h)]
    exact hs'

/-- Blanks at the end of the input never end, if nothing but blanks comes. -/
theorem skip_stuck (fuel : ℕ) (h : s.proto = []) :
    ∃ s', skip (E.withEof fun _ => 32) fuel s = .error .fuel s' := by
  induction fuel generalizing s with
  | zero => exact ⟨s, rfl⟩
  | succ fuel ih =>
    obtain ⟨s', hs'⟩ := ih (s := { s with late := s.late + 1 }) h
    refine ⟨s', ?_⟩
    unfold skip
    rw [EStateM.bind_ok (getch_nil h)]
    exact hs'

/-- Without a blank the array gets full. -/
theorem collect_stuck (fuel : ℕ) (t : List Byte) (c : Byte) (h : s.proto = []) :
    ∃ e s', collect (E.withEof fun _ => 97) fuel t c s = .error e s' ∧ e ≠ .exit := by
  induction fuel generalizing s t c with
  | zero => exact ⟨.fuel, s, rfl, by decide⟩
  | succ fuel ih =>
    unfold collect
    split
    · exact ⟨.bounds, s, rfl, by decide⟩
    · rw [EStateM.bind_ok (getch_nil h)]
      exact ih (s := { s with late := s.late + 1 }) (t ++ [c]) 97 h

/-- One byte is read, and then the rest. -/
theorem Reads.getch {α : Type} {f : (ℕ → Byte) → ℕ → Byte → M α} {c : Byte} {cs : List Byte}
    {d : ℕ} (hp : s.proto = c :: cs)
    (hf : Reads (fun g fuel => f g fuel c) N d { s with proto := cs }) :
    Reads (fun g fuel => getch (E.withEof g) >>= f g fuel) N (d + 1) s := by
  have heq : ∀ g fuel, (Mkfs.getch (E.withEof g) >>= f g fuel) s =
      f g fuel c { s with proto := cs } := fun g fuel => EStateM.bind_ok (getch_cons hp)
  cases hf with
  | inText r same late fuel shorter =>
    refine .inText r (fun g fuel h => (heq g fuel).trans (same g fuel h)) late fuel ?_
    intro a s' hr
    have := shorter a s' hr
    rw [hp, List.length_cons]
    dsimp only at this
    omega
  | beyond late c' stuck =>
    refine .beyond (fun g fuel h => ?_) c' fun fuel h => ?_
    · rw [heq]
      exact late g fuel h
    · rw [heq]
      exact stuck fuel h

/-- A comment is read within the input, or behind its end. -/
theorem reads_comment (hs : s.late = 0) (hN : s.proto.length < N) :
    Reads (fun g fuel => comment (E.withEof g) fuel) N 0 s := by
  induction hp : s.proto generalizing s N with
  | nil =>
    refine .beyond (fun g fuel h => ?_) 32 fun fuel h => ?_
    · obtain ⟨fuel, rfl⟩ := Nat.exists_eq_add_of_lt (hN.trans_le h)
      exact late_getch hp fun c => .ite (.pure Later.refl ()) (later_comment _)
    · obtain ⟨s', hs'⟩ := comment_stuck (E := E) fuel hp
      exact ⟨.fuel, s', hs', by decide⟩
  | cons c cs ih =>
    rw [hp, List.length_cons] at hN
    have hstep : Reads (fun g fuel => getch (E.withEof g) >>= fun c =>
        if c = 10 then pure () else comment (E.withEof g) (fuel - 1)) N 1 s := by
      refine .getch (d := 0) hp (.ite (fun _ => .quiet (.pure ()) hs fun _ _ => rfl) fun _ => ?_)
      have hcs : cs.length < N - 1 := by omega
      exact (ih (s := { s with proto := cs }) hs hcs rfl).shift (· - 1) fun fuel h => by omega
    refine (hstep.weaken (Nat.zero_le 1)).congr fun g fuel h => ?_
    obtain ⟨fuel, rfl⟩ := Nat.exists_eq_add_of_lt (hN.trans_le h)
    rfl

/-- Blanks are read within the input with the first byte of a word, or behind its end. -/
theorem reads_skip (hs : s.late = 0) (hN : s.proto.length < N) :
    Reads (fun g fuel => skip (E.withEof g) fuel) N 1 s := by
  induction hn : s.proto.length using Nat.strong_induction_on generalizing s N with
  | _ n ih =>
    cases hp : s.proto with
    | nil =>
      refine .beyond (fun g fuel h => ?_) 32 fun fuel h => ?_
      · obtain ⟨fuel, rfl⟩ := Nat.exists_eq_add_of_lt (hN.trans_le h)
        refine late_getch hp fun c => .ite (later_skip _) (.ite (.throw Later.refl Stop.exit) ?_)
        exact .ite (.bind Later.trans (later_comment _) fun _ => later_skip _) (.pure Later.refl c)
      · obtain ⟨s', hs'⟩ := skip_stuck (E := E) fuel hp
        exact ⟨.fuel, s', hs', by decide⟩
    | cons c cs =>
      rw [hp, List.length_cons] at hN hn
      -- what is left after this character, and possibly a comment
      have hskip : ∀ s' : St, s'.late = 0 → s'.proto.length ≤ cs.length →
          Reads (fun g fuel => skip (E.withEof g) (fuel - 1)) N 0 s' := by
        intro s' hs' hle
        have h := ih s'.proto.length (by omega) hs' (N := N - 1) (by omega) rfl
        exact (h.weaken (Nat.zero_le 1)).shift (· - 1) fun fuel h => by omega
      have hstep : Reads (fun g fuel => getch (E.withEof g) >>= fun c =>
          if blank c then skip (E.withEof g) (fuel - 1)
          else if c = 0 then throw .exit
          else if c = 58 then do
            comment (E.withEof g) (fuel - 1)
            skip (E.withEof g) (fuel - 1)
          else pure c) N 1 s := by
        refine .getch (d := 0) hp (.ite (fun _ => hskip _ hs le_rfl) fun _ => ?_)
        refine .ite (fun _ => .quiet (.throw (by decide)) hs fun _ _ => rfl) fun _ => ?_
        refine .ite (fun _ => ?_) fun _ => .quiet (.pure c) hs fun _ _ => rfl
        have hcs : cs.length < N - 1 := by omega
        have hcomment : Reads (fun g fuel => comment (E.withEof g) (fuel - 1)) N 0
            { s with proto := cs } :=
          (reads_comment (s := { s with proto := cs }) hs hcs).shift (· - 1) fun fuel h => by omega
        exact hcomment.bind (fun _ _ _ => later_skip _) fun _ s' hs' hle => hskip s' hs' hle
      refine hstep.congr fun g fuel h => ?_
      obtain ⟨fuel, rfl⟩ := Nat.exists_eq_add_of_lt (hN.trans_le h)
      rfl

/-- A word is read within the input, or behind its end. -/
theorem reads_collect (t : List Byte) (c : Byte) (hs : s.late = 0) (hN : s.proto.length < N) :
    Reads (fun g fuel => collect (E.withEof g) fuel t c) N 0 s := by
  induction hp : s.proto generalizing s N t c with
  | nil =>
    -- at the end of the file: the string is full, or `getch` reads beyond it
    by_cases ht : 49 ≤ t.length
    · have hN' : 0 < N := by omega
      refine (Reads.quiet (.throw (e := Stop.bounds) (by decide)) hs fun _ _ => rfl).congr
        fun g fuel h => ?_
      obtain ⟨fuel, rfl⟩ := Nat.exists_eq_add_of_lt (hN'.trans_le h)
      unfold collect
      rw [if_pos ht]
    · refine .beyond (fun g fuel h => ?_) 97 fun fuel h => collect_stuck fuel t c hp
      obtain ⟨fuel, rfl⟩ := Nat.exists_eq_add_of_lt (hN.trans_le h)
      unfold collect
      rw [if_neg ht]
      exact late_getch hp fun c' => .ite (.pure Later.refl _) (later_collect _ _ c')
  | cons c' cs ih =>
    rw [hp, List.length_cons] at hN
    -- a character of the text is added, and the rest is shorter
    have hstep : Reads (fun g fuel => if 49 ≤ t.length then throw .bounds
        else getch (E.withEof g) >>= fun c' => if blank c' ∨ c' = 0 then pure (t ++ [c])
          else collect (E.withEof g) (fuel - 1) (t ++ [c]) c') N 0 s := by
      refine .ite (fun _ => .quiet (.throw (by decide)) hs fun _ _ => rfl) fun _ => ?_
      refine (Reads.getch (d := 0) hp ?_).weaken (Nat.zero_le 1)
      refine .ite (fun _ => .quiet (.pure _) hs fun _ _ => rfl) fun _ => ?_
      have hcs : cs.length < N - 1 := by omega
      exact (ih _ c' (s := { s with proto := cs }) hs hcs rfl).shift (· - 1) fun fuel h => by omega
    refine hstep.congr fun g fuel h => ?_
    obtain ⟨fuel, rfl⟩ := Nat.exists_eq_add_of_lt (hN.trans_le h)
    rfl

/-! ## Programs that read -/

/-- A program that reads a text of less than `L` characters, with a fuel of at least `N`. -/
structure Text {α : Type} (m : Reader α) (N L d : ℕ) : Prop where
  later : ∀ g fuel, Moves Later (m g fuel)
  reads : ∀ s, s.late = 0 → s.proto.length < L → Reads m N d s

namespace Text

variable {α β : Type} {m m₁ m₂ : Reader α} {f : (ℕ → Byte) → ℕ → α → M β} {L N' L' d k : ℕ}

theorem quiet {m₀ : M α} (h : Quiet m₀) : Text (fun _ _ => m₀) N L 0 :=
  ⟨fun _ _ => h.later, fun _ hs _ => .quiet h hs fun _ _ => rfl⟩

theorem mono (h : Text m N L d) (hL : L' ≤ L) (hk : k ≤ d) : Text m N L' k :=
  ⟨h.later, fun s hs hlen => (h.reads s hs (hlen.trans_le hL)).weaken hk⟩

/-- A program that is given its fuel in another way. -/
theorem shift (φ : ℕ → ℕ) (h : Text m N L d) (hφ : ∀ fuel, N' ≤ fuel → N ≤ φ fuel) :
    Text (fun g fuel => m g (φ fuel)) N' L d :=
  ⟨fun g fuel => h.later g (φ fuel), fun s hs hlen => (h.reads s hs hlen).shift φ hφ⟩

/-- One program after another: the second has the input that the first has left. -/
theorem bind (hm : Text m N L d) (hf : ∀ a, Text (fun g fuel => f g fuel a) N (L - d) k) :
    Text (fun g fuel => m g fuel >>= f g fuel) N L (d + k) where
  later g fuel := .bind Later.trans (hm.later g fuel) fun a => (hf a).later g fuel
  reads s hs hlen := (hm.reads s hs hlen).bind (fun g fuel a => (hf a).later g fuel)
    fun a s' hs' hle => (hf a).reads s' hs' (by omega)

/-- In front of a program that reads on, what has been taken need not be counted. -/
theorem andThen (hm : Text m N L d) (hf : ∀ a, Text (fun g fuel => f g fuel a) N L k) :
    Text (fun g fuel => m g fuel >>= f g fuel) N L k :=
  (hm.bind fun a => (hf a).mono (Nat.sub_le L d) le_rfl).mono le_rfl (Nat.le_add_left k d)

/-- Both branches of a decision. -/
theorem ite {c : Prop} [Decidable c] (h₁ : c → Text m₁ N L d) (h₂ : ¬c → Text m₂ N L d) :
    Text (fun g fuel => if c then m₁ g fuel else m₂ g fuel) N L d := by
  split
  · exact h₁ ‹_›
  · exact h₂ ‹_›

end Text

variable {L : ℕ}

theorem text_getstr (hL : L ≤ N) : Text (fun g fuel => getstr (E.withEof g) fuel) N L 1 := by
  have hset : ∀ t, Quiet (modify fun s => { s with string := t } : M Unit) :=
    fun t => .modify fun _ => rfl
  have hskip : Text (fun g fuel => skip (E.withEof g) fuel) N L 1 :=
    ⟨fun _ _ => later_skip _, fun s hs hlen => reads_skip hs (hlen.trans_le hL)⟩
  have hcollect : ∀ c, Text (fun g fuel => collect (E.withEof g) fuel [] c) N (L - 1) 0 := fun c =>
    ⟨fun _ _ => later_collect _ [] c, fun s hs hlen => reads_collect [] c hs (by omega)⟩
  exact hskip.bind (k := 0) fun c => (hcollect c).andThen fun t => .quiet (hset t)

theorem text_getnum (hL : L ≤ N) : Text (fun g fuel => getnum (E.withEof g) fuel) N L 1 :=
  (text_getstr hL).bind fun _ => .quiet (Ends.get.bind fun _ => ends_number _ _)

/-! ## Files -/

theorem text_header (hL : L ≤ N) : Text (fun g fuel => header (E.withEof g) fuel) N L 1 := by
  refine (text_getstr hL).bind (k := 0) fun _ => (Text.quiet ends_mode).andThen fun i_mode => ?_
  refine (text_getnum (by omega)).andThen fun i_uid => ?_
  refine (text_getnum (by omega)).andThen fun i_gid => ?_
  exact (Text.quiet quiet_nextIno).andThen fun n => .quiet (.pure _)

/-- The lines of a regular file. -/
theorem text_regular (n : ℕ) (ip : Inode) (hL : L ≤ N) :
    Text (fun g fuel => regular (E.withEof g) fuel n ip) N L 0 := by
  refine (text_getstr hL).andThen fun _ => (Text.quiet .get).andThen fun s => ?_
  simp only [Env.withEof_files, copyBlocks_withEof]
  cases E.files s.string with
  | none => exact .quiet ((ends_addresses ip {}).quiet.bind fun ip => quiet_place n ip)
  | some cs =>
    refine (Text.quiet (ends_copyBlocks _ ip {}).quiet).andThen fun r => ?_
    refine (Text.quiet (ends_addresses r.1 r.2).quiet).andThen fun ip => ?_
    exact (Text.quiet (quiet_place n ip)).andThen fun _ => .quiet (.modify fun _ => rfl)

/-- The lines of a special file. -/
theorem text_special (n : ℕ) (ip : Inode) (hL : L ≤ N) :
    Text (fun g fuel => special (E.withEof g) fuel n ip) N L 0 := by
  refine (text_getnum hL).andThen fun maj => (text_getnum hL).andThen fun min => ?_
  exact .quiet ((ends_addresses _ {}).quiet.bind fun ip => quiet_place n ip)

/-- The entries of a directory may end behind the end of the input. -/
theorem later_dirents {rec : Inode → M Inode} (hrec : ∀ ip, Moves Later (rec ip)) (fuel : ℕ)
    (ip : Inode) (b : Blocks) : Moves Later (dirents E rec fuel ip b) := by
  induction fuel generalizing ip b with
  | zero => exact .throw Later.refl Stop.fuel
  | succ fuel ih =>
    have hgetstr : Moves Later (getstr E (fuel + 1)) :=
      (text_getstr (E := E) (N := 0) le_rfl).later E.eof (fuel + 1)
    refine .bind Later.trans hgetstr fun _ => .bind Later.trans (.get Later.refl) fun s => ?_
    refine .ite (.pure Later.refl _) (.bind Later.trans (ends_entry _ _ b).quiet.later fun b => ?_)
    exact .bind Later.trans (hrec _) fun ip => ih ip b

/-- The loop gets what is left of its fuel after `j` turns; the files get the fuel that it had. -/
theorem text_dirents {rec : (ℕ → Byte) → ℕ → Inode → M Inode}
    (hrec : ∀ ip, Text (fun g fuel => rec g fuel ip) N N 0) (L j : ℕ) (hL : L + j ≤ N) (ip : Inode)
    (b : Blocks) :
    Text (fun g fuel => dirents (E.withEof g) (rec g fuel) (fuel - j) ip b) N L 0 := by
  have hlater : ∀ g fuel, Moves Later (dirents (E.withEof g) (rec g fuel) (fuel - j) ip b) :=
    fun g fuel => later_dirents (fun ip => (hrec ip).later g fuel) _ ip b
  induction L generalizing j ip b with
  | zero => exact ⟨hlater, fun s _ hlen => absurd hlen (Nat.not_lt_zero _)⟩
  | succ L ih =>
    have hgetstr : Text (fun g fuel => getstr (E.withEof g) (fuel - j)) N (L + 1) 1 :=
      (text_getstr (N := N - j) (by omega)).shift (· - j) fun fuel h => by omega
    -- a turn reads a name and then what belongs to it
    have hstep : Text (fun g fuel => do
        getstr (E.withEof g) (fuel - j)
        let s ← get
        if s.string = [36] then pure (ip, b)
        else do
          let b ← entry (E.withEof g) (BitVec.ofNat 16 (s.ino + 1)) s.string b
          let ip ← rec g fuel { ip with i_size1 := ip.i_size1 + 16 }
          dirents (E.withEof g) (rec g fuel) (fuel - (j + 1)) ip b) N (L + 1) 0 := by
      refine (hgetstr.bind (k := 0) fun _ => (Text.quiet .get).andThen fun s => ?_).mono le_rfl
        (Nat.zero_le 1)
      refine .ite (fun _ => .quiet (.pure _)) fun _ => ?_
      refine (Text.quiet (ends_entry (E := E) _ _ b).quiet).andThen fun b => ?_
      refine ((hrec _).mono (by omega) le_rfl).andThen fun ip => ?_
      refine ih (j + 1) (by omega) ip b fun g fuel => ?_
      exact later_dirents (fun ip => (hrec ip).later g fuel) _ ip b
    refine ⟨hlater, fun s hs hlen => (hstep.reads s hs hlen).congr fun g fuel h => ?_⟩
    obtain ⟨k, hk⟩ := Nat.exists_eq_add_of_lt (show j < fuel by omega)
    have hj : fuel - j = k + 1 := by omega
    have hj' : fuel - (j + 1) = k := by omega
    rw [hj, hj']
    rfl

/-- The entries of a directory, with the files in it. -/
theorem text_directory {rec : (ℕ → Byte) → ℕ → Inode → M Inode}
    (hrec : ∀ ip, Text (fun g fuel => rec g fuel ip) N N 0) (hL : L ≤ N) (n : ℕ) (up : BitVec 16)
    (ip : Inode) :
    Text (fun g fuel => directory (E.withEof g) fuel n (rec g fuel) up ip) N L 0 := by
  refine (Text.quiet (ends_entry (E := E) up _ {}).quiet).andThen fun b => ?_
  refine (Text.quiet (ends_entry (E := E) ip.i_number _ b).quiet).andThen fun b => ?_
  refine (text_dirents hrec L 0 hL _ b).andThen fun r => ?_
  exact .quiet ((ends_addresses r.1 r.2).quiet.bind fun ip => quiet_place n ip)

/-- A file with all that is in it. -/
theorem text_cfileWith {rec : (ℕ → Byte) → ℕ → Option Inode → M (Option Inode)}
    (hrec : ∀ par, Text (fun g fuel => rec g fuel par) N N 0) (hL : L ≤ N + 1)
    (par : Option Inode) :
    Text (fun g fuel => cfileWith (E.withEof g) fuel (rec g fuel) par) N L 0 := by
  have hheader : Text (fun g fuel => header (E.withEof g) (fuel + 1)) N L 1 :=
    (text_header hL).shift (· + 1) fun fuel h => by omega
  refine (hheader.bind (k := 0) fun r => ?_).mono le_rfl (Nat.zero_le 1)
  refine .ite (fun _ => ?_) fun _ => .ite (fun _ => ?_) fun _ => ?_
  · have hregular : Text (fun g fuel => regular (E.withEof g) (fuel + 1) r.1
        (if par.isNone then { r.2 with i_nlink := 0 } else r.2)) N (L - 1) 0 :=
      (text_regular _ _ (N := N + 1) (by omega)).shift (· + 1) fun fuel h => by omega
    exact hregular.andThen fun _ => .quiet (.pure par)
  · refine (text_directory (fun ip => ?_) (by omega) _ _ _).andThen fun _ => .quiet (.pure _)
    simp only [← bind_pure_comp]
    exact (hrec (some ip)).andThen fun _ => .quiet (.pure _)
  · have hspecial : Text (fun g fuel => special (E.withEof g) (fuel + 1) r.1
        (if par.isNone then { r.2 with i_nlink := 0 } else r.2)) N (L - 1) 0 :=
      (text_special _ _ (N := N + 1) (by omega)).shift (· + 1) fun fuel h => by omega
    exact hspecial.andThen fun _ => .quiet (.pure par)

theorem later_cfile (fuel : ℕ) (par : Option Inode) : Moves Later (cfile E fuel par) := by
  induction fuel generalizing par with
  | zero => exact .throw Later.refl Stop.fuel
  | succ fuel ih =>
    have hrec : ∀ par, Text (fun _ _ => cfile E fuel par) 0 0 0 :=
      fun par => ⟨fun _ _ => ih par, fun s _ hlen => absurd hlen (Nat.not_lt_zero _)⟩
    exact (text_cfileWith (E := E) hrec (Nat.zero_le 1) par).later E.eof fuel

/-- A call of `cfile` takes a character or more, so that the fuel lasts for the calls inside it. -/
theorem text_cfile (N : ℕ) (par : Option Inode) :
    Text (fun g fuel => cfile (E.withEof g) fuel par) N N 0 := by
  induction N generalizing par with
  | zero => exact ⟨fun _ _ => later_cfile _ par, fun s _ hlen => absurd hlen (Nat.not_lt_zero _)⟩
  | succ N ih =>
    refine ⟨fun _ _ => later_cfile _ par, fun s hs hlen => ?_⟩
    have hstep : Text (fun g fuel => cfileWith (E.withEof g) (fuel - 1)
        (cfile (E.withEof g) (fuel - 1)) par) (N + 1) (N + 1) 0 :=
      (text_cfileWith ih le_rfl par).shift (· - 1) fun fuel h => by omega
    refine (hstep.reads s hs hlen).congr fun g fuel h => ?_
    obtain ⟨fuel, rfl⟩ := Nat.exists_eq_add_of_lt (Nat.zero_lt_of_lt h)
    rw [Nat.zero_add]
    rfl

/-! ## The program -/

theorem text_boot (hL : L ≤ N) : Text (fun g fuel => boot (E.withEof g) fuel) N L 0 := by
  refine (text_getstr hL).andThen fun _ => (Text.quiet .get).andThen fun s => ?_
  simp only [Env.withEof_files]
  cases E.files s.string with
  | none => exact .quiet (.pure ())
  | some cs =>
    have hbuf : Quiet (modify fun s => { s with buf := store s.buf 0 (cs.take 512) } : M Unit) :=
      .modify fun _ => rfl
    exact .quiet (hbuf.bind fun _ => Ends.get.bind fun s => (ends_wtfs (E := E) 0 s.buf).quiet)

theorem text_sizes (hL : L ≤ N) : Text (fun g fuel => sizes (E.withEof g) fuel) N L 0 := by
  refine (text_getnum hL).andThen fun s_fsize => (text_getnum hL).andThen fun s_isize => ?_
  refine (text_getnum hL).andThen fun swap => ?_
  refine .quiet (Ends.bind (.modify fun _ => rfl) fun _ => ?_)
  exact .ite (.throw (by decide)) (.pure ())

/-- The whole of the input. -/
theorem text_main (fsys : List Byte) : Text (fun g fuel => main (E.withEof g) fsys fuel) N N 0 := by
  have hbuf : Quiet (modify fun s => { s with buf := Block.zero } : M Unit) :=
    .modify fun _ => rfl
  refine (text_boot le_rfl).andThen fun _ => (text_sizes le_rfl).andThen fun _ => ?_
  have hwtfs : ∀ n : ℕ, Ends St.noOutput (wtfs E (n + 2) Block.zero) := fun _ => ends_wtfs _ _
  refine (Text.quiet (ends_bflist (E := E) _ _).quiet).andThen fun _ => ?_
  refine (Text.quiet hbuf).andThen fun _ => (Text.quiet .get).andThen fun s => ?_
  refine (Text.quiet (ends_each hwtfs _).quiet).andThen fun _ => ?_
  refine (Text.quiet (ends_wtfs (E := E) _ Block.zero).quiet).andThen fun _ => ?_
  refine (text_cfile N none).andThen fun _ => (Text.quiet hbuf).andThen fun _ => ?_
  exact .quiet (Ends.get.bind fun s => (ends_wtfs (E := E) 1 s.superblock).quiet)

/-- The image is complete, or the program has called `exit`. -/
def Done : EStateM.Result Stop St Unit → Prop
  | .ok _ _ => True
  | .error e _ => e = .exit

/-- The program comes to its end, for some fuel and for every larger one. -/
def Terminates (E : Env) (fsys proto : List Byte) : Prop :=
  ∃ fuel₀, ∀ fuel, fuel₀ ≤ fuel → Done (run E fsys proto fuel)

/-- Every call of `getchar` has found a character in the proto file, and every index was inside its
array. -/
def InText (r : EStateM.Result Stop St Unit) : Prop :=
  r.state.late = 0 ∧ ∀ s, r ≠ .error .bounds s

/-- A run reads its input to the end, or behind it, with more fuel than it has bytes. -/
theorem reads_run (E : Env) (fsys proto : List Byte) :
    Reads (fun g fuel => main (E.withEof g) fsys fuel) (proto.length + 1) 0 (start proto) :=
  (text_main fsys).reads _ rfl (Nat.lt_succ_self proto.length)

section

variable {fsys proto : List Byte} {fuel : ℕ}

/-- A program that has read behind the end does not come to its own for some `c`. -/
theorem exists_not_terminates (hfuel : proto.length < fuel)
    (hlate : (run E fsys proto fuel).state.late ≠ 0) :
    ∃ c, ¬ Terminates (E.withEof fun _ => c) fsys proto := by
  cases reads_run E fsys proto with
  | inText r same late fuel shorter =>
    have hr : run E fsys proto _ = r := same E.eof _ hfuel
    rw [hr] at hlate
    exact absurd late hlate
  | beyond late c stuck =>
    refine ⟨c, fun ⟨fuel₀, hdone⟩ => ?_⟩
    have hdone := hdone _ (le_max_left fuel₀ (proto.length + 1))
    obtain ⟨e, s, he, hexit⟩ := stuck (max fuel₀ (proto.length + 1)) (le_max_right _ _)
    unfold run at hdone
    rw [he] at hdone
    exact hexit hdone

/-- A program that has not read behind the end runs the same way whatever `c` is. -/
theorem run_same (hfuel : proto.length < fuel) (hlate : (run E fsys proto fuel).state.late = 0)
    (eof : ℕ → Byte) {fuel' : ℕ} (hfuel' : proto.length < fuel') :
    run (E.withEof eof) fsys proto fuel' = run E fsys proto fuel ∧
      ∀ s, run E fsys proto fuel ≠ .error .fuel s := by
  cases reads_run E fsys proto with
  | inText r same late ended shorter =>
    have hr : run E fsys proto fuel = r := same E.eof fuel hfuel
    rw [hr]
    exact ⟨same eof fuel' hfuel', ended⟩
  | beyond late c stuck =>
    have hpos : 0 < (run E fsys proto fuel).state.late := late E.eof fuel hfuel
    exact absurd hlate hpos.ne'

end

/-- Whatever `getchar` returns behind its end, the program comes to an end on a proto file, if and
only if it does not get there. -/
theorem terminates_iff (E : Env) (fsys proto : List Byte) :
    (∀ eof, Terminates (E.withEof eof) fsys proto) ↔
      ∀ fuel, proto.length < fuel → InText (run E fsys proto fuel) := by
  constructor
  · intro h fuel hfuel
    by_cases hlate : (run E fsys proto fuel).state.late = 0
    · refine ⟨hlate, fun s hs => ?_⟩
      obtain ⟨fuel₀, hdone⟩ := h E.eof
      have hmax := hdone (max fuel₀ fuel) (le_max_left _ _)
      rw [(run_same hfuel hlate E.eof (hfuel.trans_le (le_max_right _ _))).1, hs] at hmax
      cases hmax
    · -- behind the end there is a character on which it runs on
      obtain ⟨c, hc⟩ := exists_not_terminates hfuel hlate
      exact absurd (h fun _ => c) hc
  · -- the run is the same whatever is behind the end
    intro h eof
    refine ⟨proto.length + 1, fun fuel hfuel => ?_⟩
    obtain ⟨hlate, hbounds⟩ := h fuel hfuel
    obtain ⟨hsame, hended⟩ := run_same hfuel hlate eof hfuel
    rw [hsame]
    cases hr : run E fsys proto fuel with
    | ok a s => trivial
    | error e s =>
      cases e with
      | exit => rfl
      | bounds => exact absurd hr (hbounds s)
      | fuel => exact absurd hr (hended s)

/-- The proto file is `b 9 1 0`, a new line, `d--777 0 0` and a new line, without the `$` that would
close the directory. -/
theorem unclosed_directory :
    ¬ ∀ eof, Terminates { files := fun _ => none, eof, lseek := fun pos _ => pos } []
      [98, 32, 57, 32, 49, 32, 48, 10, 100, 45, 45, 55, 55, 55, 32, 48, 32, 48, 10] := by
  intro h
  have hlate : (run { files := fun _ => none, eof := fun _ => 10, lseek := fun pos _ => pos } []
      [98, 32, 57, 32, 49, 32, 48, 10, 100, 45, 45, 55, 55, 55, 32, 48, 32, 48, 10]
      20).state.late ≠ 0 := by decide +kernel
  obtain ⟨c, hc⟩ := exists_not_terminates (by decide) hlate
  exact hc (h fun _ => c)

end UnixV6.Mkfs
