import UnixV6.Dmr.TtyInput

/-!
# Editing a line

What erase, kill and escapes make of the characters of a line, without the buffer of `canon` and its
places: the line so far, the last character first. The scan does that until the buffer is full.
-/

open Function

namespace UnixV6.Tty

variable {P : Set ℕ} {t t' : Tty} {lay : TtyQ → Layout} {free : List ℕ} {be : Backend}

/-- The line `w` after one more character. -/
def feed (t : Tty) (w : List Byte) (c : Byte) : List Byte :=
  if t.mode RAW then c :: w
  else if w.head? ≠ some (ascii '\\') then
    if (c.toNat : ℤ) = t.t_erase.toInt then w.tail
    else if (c.toNat : ℤ) = t.t_kill.toInt then []
    else if c = CEOT then w
    else c :: w
  else if maptab c.toNat ≠ 0 ∧ ((maptab c.toNat).toInt = c.toNat ∨ t.mode LCASE) then
    (if w.tail.head? ≠ some (ascii '\\') then maptab c.toNat else c) :: w.tail
  else c :: w

/-- A character makes the line longer by at most one. -/
theorem length_feed_le (t : Tty) (w : List Byte) (c : Byte) :
    (feed t w c).length ≤ w.length + 1 := by
  simp only [feed]
  have htail := List.length_tail (l := w)
  split_ifs <;> (try simp only [List.length_cons, List.length_nil]) <;> omega

/-- Characters make the line longer by at most their number. -/
theorem length_foldl_feed_le (t : Tty) (w cs : List Byte) :
    (cs.foldl (feed t) w).length ≤ w.length + cs.length := by
  induction cs generalizing w with
  | nil => exact le_rfl
  | cons c cs ih =>
    have hc := length_feed_le t w c
    have hcs := ih (feed t w c)
    rw [List.foldl_cons, List.length_cons]
    omega

/-! ## The buffer -/

/-- The line is in the buffer. -/
def Holds (canonb : ℕ → Byte) (w : List Byte) : Prop := lineOf (2 + w.length) canonb = w.reverse

/-- The line with one character more. -/
theorem lineOf_succ (canonb : ℕ → Byte) (n : ℕ) :
    lineOf (2 + (n + 1)) canonb = lineOf (2 + n) canonb ++ [canonb (2 + n)] := by
  simp only [lineOf, Nat.add_sub_cancel_left, List.range'_concat, List.map_append, List.map_cons,
    List.map_nil, Nat.one_mul]

theorem Holds.nil (canonb : ℕ → Byte) : Holds canonb [] := rfl

/-- A line is in the buffer if its characters are. -/
theorem holds_cons {canonb : ℕ → Byte} {w : List Byte} {c : Byte} :
    Holds canonb (c :: w) ↔ Holds canonb w ∧ canonb (2 + w.length) = c := by
  rw [Holds, List.length_cons, lineOf_succ, List.reverse_cons, Holds]
  constructor
  · intro h
    obtain ⟨hinit, hlast⟩ := List.append_inj' h rfl
    exact ⟨hinit, List.singleton_injective hlast⟩
  · rintro ⟨hinit, rfl⟩
    rw [hinit]

/-- Without its last character the line is still in the buffer. -/
theorem Holds.tail {canonb : ℕ → Byte} {w : List Byte} (h : Holds canonb w) :
    Holds canonb w.tail := by
  cases w with
  | nil => exact h
  | cons c w => exact (holds_cons.mp h).1

/-- What is stored behind the line does not change it. -/
theorem Holds.update {canonb : ℕ → Byte} {w : List Byte} (h : Holds canonb w) (n : ℕ) (c : Byte)
    (hn : w.length ≤ n) : Holds (update canonb (2 + n) c) w := by
  induction w with
  | nil => rfl
  | cons d w ih =>
    obtain ⟨hw, hd⟩ := holds_cons.mp h
    rw [List.length_cons] at hn
    refine holds_cons.mpr ⟨ih hw (by omega), ?_⟩
    rw [update_of_ne (by omega), hd]

/-- The next place gets a character. -/
theorem Holds.store {canonb : ℕ → Byte} {w : List Byte} (h : Holds canonb w) (c : Byte) :
    Holds (Function.update canonb (2 + w.length) c) (c :: w) :=
  holds_cons.mpr ⟨h.update w.length c le_rfl, update_self _ _ _⟩

/-- `bp[-1]`, and that there is no backslash before the line. -/
theorem Holds.last {canonb : ℕ → Byte} {w : List Byte} (h : Holds canonb w)
    (hguard : canonb 1 = 0) :
    canonb (2 + w.length - 1) = ascii '\\' ↔ w.head? = some (ascii '\\') := by
  cases w with
  | nil =>
    rw [show 2 + ([] : List Byte).length - 1 = 1 from rfl, hguard]
    exact iff_of_false (by decide) (by simp)
  | cons c w =>
    rw [List.length_cons, show 2 + (w.length + 1) - 1 = 2 + w.length by omega,
      (holds_cons.mp h).2, List.head?_cons, Option.some_inj]

/-- `bp[-2]` -/
theorem Holds.last2 {canonb : ℕ → Byte} {w : List Byte} (h : Holds canonb w)
    (hguard : canonb 1 = 0) (hw : w ≠ []) :
    canonb (2 + w.length - 2) = ascii '\\' ↔ w.tail.head? = some (ascii '\\') := by
  obtain ⟨c, w, rfl⟩ := List.exists_cons_of_ne_nil hw
  rw [List.length_cons, show 2 + (w.length + 1) - 2 = 2 + w.length - 1 by omega, List.tail_cons]
  exact h.tail.last hguard

/-! ## The scan -/

/-- Where `canon` stores a character, if it does, is where the line ends that is kept. -/
theorem edit_feed {c : Byte} {w : List Byte} {canonb : ℕ → Byte} (h : Holds canonb w)
    (hguard : canonb 1 = 0) :
    ({ t with canonb := canonb }.edit (2 + w.length) c.toNat = (2 + (feed t w c).length, none) ∧
        Holds canonb (feed t w c) ∧ (feed t w c).length ≤ w.length) ∨
      ∃ w' d, { t with canonb := canonb }.edit (2 + w.length) c.toNat = (2 + w'.length, some d) ∧
        feed t w c = BitVec.ofInt 8 d :: w' ∧ Holds canonb w' ∧ w'.length ≤ w.length := by
  -- the character as an `int` and back
  have hint : BitVec.ofInt 8 c.toNat = c := by simp
  have hcast : ((c.toNat : ℤ) = CEOT.toNat) ↔ c = CEOT := by
    rw [← BitVec.toNat_inj]
    exact Int.ofNat_inj
  have hlast := h.last hguard
  -- the buffer does not enter the terminal's modes
  have hmode : ∀ flag, { t with canonb := canonb }.mode flag = t.mode flag := fun _ => rfl
  simp only [edit, feed, hmode, hcast]
  by_cases hraw : t.mode RAW = true
  -- in raw mode the character is kept as it is
  · simp only [if_pos hraw]
    exact .inr ⟨w, c.toNat, rfl, by rw [hint], h, le_rfl⟩
  simp only [if_neg hraw]
  by_cases hback : w.head? = some (ascii '\\')
  · -- the character follows a backslash
    rw [if_neg (not_not.mpr (hlast.mpr hback)), if_neg (not_not.mpr hback)]
    obtain ⟨w', rfl⟩ := List.head?_eq_some_iff.mp hback
    have hlast2 := h.last2 hguard (List.cons_ne_nil _ _)
    have hplace : 2 + (ascii '\\' :: w').length - 1 = 2 + w'.length := by
      rw [List.length_cons]
      omega
    split
    -- an escape: the character replaces the backslash, mapped if a second one stands before
    · refine .inr ⟨w', _, by rw [hplace], ?_, h.tail, by simp⟩
      rw [List.tail_cons] at hlast2 ⊢
      by_cases hback2 : w'.head? = some (ascii '\\')
      · rw [if_neg (not_not.mpr hback2), if_neg (not_not.mpr (hlast2.mpr hback2)), hint]
      · rw [if_pos hback2, if_pos fun h => hback2 (hlast2.mp h), BitVec.ofInt_toInt]
    · exact .inr ⟨_, c.toNat, rfl, by rw [hint], h, le_rfl⟩
  · rw [if_pos fun h => hback (hlast.mp h), if_pos hback]
    -- a plain character: erase with and without something to erase, kill, end of file, any other
    split_ifs with herase hpos hkill heot
    · refine .inl ⟨?_, h.tail, by simp⟩
      rw [List.length_tail]
      congr 1
      omega
    · refine .inl ⟨?_, h.tail, by simp⟩
      rw [List.length_tail]
      congr 1
      omega
    · exact .inl ⟨rfl, Holds.nil canonb, by simp⟩
    · exact .inl ⟨rfl, h, le_rfl⟩
    · exact .inr ⟨w, c.toNat, rfl, by rw [hint], h, le_rfl⟩

/-- A character is fed to the line in the buffer. -/
theorem scan_cons {c : Byte} {w : List Byte} {canonb : ℕ → Byte} (cs : List Byte)
    (h : Holds canonb w) (hguard : canonb 1 = 0) (hc : c ≠ 0o377) (hw : w.length < 254) :
    ∃ canonb', Holds canonb' (feed t w c) ∧ canonb' 1 = 0 ∧
      scan t (c :: cs) (2 + w.length) canonb =
        if (feed t w c).length = 254 then (.full, 256, canonb', cs)
        else scan t cs (2 + (feed t w c).length) canonb' := by
  rw [scan, if_neg hc]
  rcases edit_feed (t := t) (c := c) h hguard with
    ⟨hedit, hfeed, hle⟩ | ⟨w', d, hedit, hfeed, hw', hle⟩
  · refine ⟨canonb, hfeed, hguard, ?_⟩
    rw [if_neg (by omega), hedit]
  · refine ⟨update canonb (2 + w'.length) (BitVec.ofInt 8 d), ?_, ?_, ?_⟩
    · rw [hfeed]
      exact hw'.store _
    · rw [update_of_ne (by omega), hguard]
    · have hlen : (feed t w c).length = w'.length + 1 := by rw [hfeed, List.length_cons]
      rw [hedit]
      simp only [hlen]
      by_cases hfull : w'.length + 1 = 254
      · rw [if_pos hfull, if_pos (by rw [CANBSIZ]; omega), show 2 + w'.length + 1 = 256 by omega]
      · rw [if_neg hfull, if_neg (by rw [CANBSIZ]; omega), Nat.add_assoc]

/-- The line is shorter than `n` at every character. -/
def Fits (t : Tty) (n : ℕ) (w cs : List Byte) : Prop :=
  ∀ pre, pre <+: cs → (pre.foldl (feed t) w).length < n

theorem fits_nil {n : ℕ} {w : List Byte} : Fits t n w [] ↔ w.length < n := by
  constructor
  · exact fun h => h [] List.nil_prefix
  · intro h pre hpre
    rw [List.prefix_nil.mp hpre]
    exact h

/-- A character fits if the line fits before and after it. -/
theorem fits_cons {n : ℕ} {w cs : List Byte} {c : Byte} :
    Fits t n w (c :: cs) ↔ w.length < n ∧ Fits t n (feed t w c) cs := by
  constructor
  · intro h
    refine ⟨h [] List.nil_prefix, fun pre hpre => ?_⟩
    exact h (c :: pre) (List.cons_prefix_cons.mpr ⟨rfl, hpre⟩)
  · rintro ⟨hw, h⟩ pre hpre
    rcases pre with - | ⟨d, pre⟩
    · exact hw
    · obtain ⟨rfl, hrest⟩ := List.cons_prefix_cons.mp hpre
      exact h pre hrest

/-- Characters fit one after another. -/
theorem fits_append {n : ℕ} {w cs cs' : List Byte} :
    Fits t n w (cs ++ cs') ↔ Fits t n w cs ∧ Fits t n (cs.foldl (feed t) w) cs' := by
  induction cs generalizing w with
  | nil =>
    rw [List.nil_append, List.foldl_nil, fits_nil, iff_and_self]
    exact fun h => h [] List.nil_prefix
  | cons c cs ih => rw [List.cons_append, fits_cons, fits_cons, ih, List.foldl_cons, and_assoc]

/-- What fits into a small buffer fits into a larger one. -/
theorem Fits.mono {n n' : ℕ} {w cs : List Byte} (h : Fits t n w cs) (hn : n ≤ n') :
    Fits t n' w cs := fun pre hpre => lt_of_lt_of_le (h pre hpre) hn

/-- A line that fits into the buffer is scanned up to its delimiter. -/
theorem scan_line {cs w : List Byte} {canonb : ℕ → Byte} (rest : List Byte) (h : Holds canonb w)
    (hguard : canonb 1 = 0) (hcs : 0o377 ∉ cs) (hfits : Fits t 254 w cs) :
    ∃ canonb', Holds canonb' (cs.foldl (feed t) w) ∧
      scan t (cs ++ 0o377 :: rest) (2 + w.length) canonb =
        (.delimiter, 2 + (cs.foldl (feed t) w).length, canonb', rest) := by
  induction cs generalizing w canonb with
  | nil => exact ⟨canonb, h, by rw [List.nil_append, scan, if_pos rfl]; rfl⟩
  | cons c cs ih =>
    rw [List.mem_cons, not_or] at hcs
    obtain ⟨hw, hfits⟩ := fits_cons.mp hfits
    have hnext : (feed t w c).length < 254 := hfits [] List.nil_prefix
    obtain ⟨canonb₁, h₁, hguard₁, hscan⟩ :=
      scan_cons (t := t) (cs ++ 0o377 :: rest) h hguard (Ne.symm hcs.1) hw
    rw [if_neg (by omega)] at hscan
    rw [List.cons_append, hscan, List.foldl_cons]
    exact ih h₁ hguard₁ hcs.2 hfits

/-! ## Escapes -/

/-- The characters that have to be escaped with `#` and `@` as erase and kill. -/
def Special (c : Byte) : Prop := c = ascii '#' ∨ c = ascii '@' ∨ c = CEOT

instance (c : Byte) : Decidable (Special c) := by
  unfold Special
  infer_instance

/-- A line with a backslash before each of them. -/
def escaped (s : List Byte) : List Byte :=
  s.flatMap fun c => if Special c then [ascii '\\', c] else [c]

/-- A character that stands for itself. -/
structure Ordinary (c : Byte) : Prop where
  seven : c.toNat ≤ 0o177
  special : ¬Special c
  backslash : c ≠ ascii '\\'

/-- The escaped line, or the same with an ordinary character between two others and an erase for
it. -/
inductive Corrected (s : List Byte) : List Byte → Prop
  | escaped : Corrected s (escaped s)
  | erased {e₁ e₂ : List Byte} {a x b : Byte} (he : Tty.escaped s = e₁ ++ a :: b :: e₂)
      (ha : Ordinary a) (hx : Ordinary x) (hb : Ordinary b) :
      Corrected s (e₁ ++ a :: x :: ascii '#' :: b :: e₂)

/-- The same, or after another beginning that is killed. -/
inductive TypedFor (s : List Byte) : List Byte → Prop
  | line {e : List Byte} (he : Corrected s e) : TypedFor s e
  | killed {p e : List Byte} (hp : ∀ c ∈ p, Ordinary c) (hlen : p.length ≤ 250)
      (he : Corrected s e) : TypedFor s (p ++ ascii '@' :: e)

/-- Cooked mode with the usual special characters. -/
structure Cooked (t : Tty) : Prop where
  raw : t.mode RAW = false
  lcase : t.mode LCASE = false
  erase : t.t_erase = ascii '#'
  kill : t.t_kill = ascii '@'

/-- The characters that `maptab` maps to themselves are special. -/
theorem special_of_maptab : ∀ c : Byte, c.toNat ≤ 0o177 →
    maptab c.toNat ≠ 0 ∧ (maptab c.toNat).toInt = c.toNat → Special c := by
  decide +kernel

/-- The special characters are those that `maptab` maps to themselves. -/
theorem maptab_of_special : ∀ c : Byte, Special c →
    c ≠ 0 ∧ maptab c.toNat = c ∧ c.toInt = c.toNat := by
  decide +kernel

namespace Cooked

/-- Whatever is not special is added to the line. -/
theorem feed_plain {c : Byte} (h : Cooked t) (hc : c.toNat ≤ 0o177) (hs : ¬Special c)
    (w : List Byte) : feed t w c = c :: w := by
  have hne : ∀ d : Byte, d.toInt = d.toNat → c ≠ d → ¬(c.toNat : ℤ) = d.toInt := by
    intro d hd hne heq
    rw [hd, Int.natCast_inj, BitVec.toNat_inj] at heq
    exact hne heq
  simp only [Special, not_or] at hs
  have herase := hne (ascii '#') (by decide) hs.1
  have hkill := hne (ascii '@') (by decide) hs.2.1
  have hmap : ¬(maptab c.toNat ≠ 0 ∧ ((maptab c.toNat).toInt = c.toNat ∨ t.mode LCASE)) := by
    rintro ⟨hpos, hself | hlcase⟩
    · have := special_of_maptab c hc ⟨hpos, hself⟩
      simp only [Special] at this
      tauto
    · rw [h.lcase] at hlcase
      exact absurd hlcase (by decide)
  rw [feed, h.raw, h.erase, h.kill, if_neg (by decide), if_neg herase, if_neg hkill,
    if_neg hs.2.2, if_neg hmap, ite_self]

/-- A special character replaces the backslash before it. -/
theorem feed_escaped {c : Byte} (h : Cooked t) (hs : Special c) (w : List Byte) :
    feed t (ascii '\\' :: w) c = c :: w := by
  obtain ⟨hpos, hmap, hint⟩ := maptab_of_special c hs
  have hcond : maptab c.toNat ≠ 0 ∧ ((maptab c.toNat).toInt = c.toNat ∨ t.mode LCASE) := by
    rw [hmap]
    exact ⟨hpos, .inl hint⟩
  rw [feed, h.raw, if_neg (by decide), if_neg (not_not.mpr List.head?_cons), if_pos hcond, hmap,
    ite_self, List.tail_cons]

/-- The erase character takes the last character away. -/
theorem feed_erase {x : Byte} (h : Cooked t) (hx : x ≠ ascii '\\') (w : List Byte) :
    feed t (x :: w) (ascii '#') = w := by
  have hback : (x :: w).head? ≠ some (ascii '\\') := fun heq => hx (Option.some.inj heq)
  rw [feed, h.raw, h.erase, if_neg (by decide), if_pos hback, if_pos (by decide), List.tail_cons]

/-- The kill character takes the line away. -/
theorem feed_kill {w : List Byte} (h : Cooked t) (hw : ascii '\\' ∉ w) :
    feed t w (ascii '@') = [] := by
  have hback : w.head? ≠ some (ascii '\\') := fun heq => hw (List.mem_of_mem_head? heq)
  rw [feed, h.raw, h.erase, h.kill, if_neg (by decide), if_pos hback, if_neg (by decide),
    if_pos (by decide)]

/-- An escaped string gives the string. -/
theorem escaped (h : Cooked t) {s w : List Byte} (hs : ∀ c ∈ s, c.toNat ≤ 0o177)
    (hlen : w.length + s.length ≤ 250) :
    Fits t 251 w (escaped s) ∧ (Tty.escaped s).foldl (feed t) w = s.reverse ++ w := by
  induction s generalizing w with
  | nil => exact ⟨fits_nil.mpr (by simp only [List.length_nil] at hlen; omega), rfl⟩
  | cons c s ih =>
    have hc := hs c List.mem_cons_self
    rw [List.length_cons] at hlen
    obtain ⟨hfits, hfold⟩ := ih (w := c :: w) (fun d hd => hs d (List.mem_cons_of_mem c hd))
      (by rw [List.length_cons]; omega)
    have hnext : Fits t 251 w (if Special c then [ascii '\\', c] else [c]) ∧
        (if Special c then [ascii '\\', c] else [c]).foldl (feed t) w = c :: w := by
      split
      case isTrue hspecial =>
        have hback : feed t w (ascii '\\') = ascii '\\' :: w :=
          h.feed_plain (by decide) (by decide) w
        simp only [fits_cons, fits_nil, List.foldl_cons, List.foldl_nil, hback,
          h.feed_escaped hspecial, List.length_cons, and_true]
        omega
      case isFalse hspecial =>
        simp only [fits_cons, fits_nil, List.foldl_cons, List.foldl_nil, h.feed_plain hc hspecial,
          List.length_cons, and_true]
        omega
    have hsplit : Tty.escaped (c :: s) =
        (if Special c then [ascii '\\', c] else [c]) ++ Tty.escaped s := List.flatMap_cons
    rw [hsplit, fits_append, List.foldl_append, hnext.2]
    exact ⟨⟨hnext.1, hfits⟩, by rw [hfold, List.reverse_cons, List.append_assoc]; rfl⟩

/-- A corrected string gives the string. -/
theorem corrected (h : Cooked t) {s e : List Byte} (hs : ∀ c ∈ s, c.toNat ≤ 0o177)
    (hlen : s.length ≤ 250) (he : Corrected s e) :
    Fits t 254 [] e ∧ e.foldl (feed t) [] = s.reverse := by
  obtain ⟨hfits, hfold⟩ := h.escaped (w := []) hs (by simpa using hlen)
  rw [List.append_nil] at hfold
  cases he with
  | escaped => exact ⟨hfits.mono (by decide), hfold⟩
  | @erased e₁ e₂ a x b he ha hx hb =>
    rw [he, fits_append, fits_cons, h.feed_plain ha.seven ha.special] at hfits
    rw [he, List.foldl_append, List.foldl_cons, h.feed_plain ha.seven ha.special] at hfold
    -- after the erase the line is what it was after `a`
    have hback : feed t (x :: a :: e₁.foldl (feed t) []) (ascii '#') = a :: e₁.foldl (feed t) [] :=
      h.feed_erase hx.backslash _
    have hlong : (a :: e₁.foldl (feed t) []).length < 251 := hfits.2.2 [] List.nil_prefix
    rw [List.foldl_append, List.foldl_cons, List.foldl_cons, List.foldl_cons,
      h.feed_plain ha.seven ha.special, h.feed_plain hx.seven hx.special, hback]
    refine ⟨fits_append.mpr ⟨hfits.1.mono (by decide), ?_⟩, hfold⟩
    simp only [fits_cons, h.feed_plain ha.seven ha.special, h.feed_plain hx.seven hx.special,
      hback] at hfits ⊢
    rw [List.length_cons] at hlong ⊢
    rw [List.length_cons, List.length_cons]
    exact ⟨by omega, by omega, by omega, by omega, hfits.2.2.2.mono (by decide)⟩

/-- Ordinary characters are added one after another. -/
theorem ordinary (h : Cooked t) {n : ℕ} (p w : List Byte) (hp : ∀ c ∈ p, Ordinary c)
    (hlen : p.length + w.length < n) :
    Fits t n w p ∧ p.foldl (feed t) w = p.reverse ++ w := by
  induction p generalizing w with
  | nil => exact ⟨fits_nil.mpr (by simpa using hlen), rfl⟩
  | cons c p ih =>
    have hc := hp c List.mem_cons_self
    rw [List.length_cons] at hlen
    obtain ⟨hfits, hfold⟩ := ih (c :: w) (fun d hd => hp d (List.mem_cons_of_mem c hd))
      (by rw [List.length_cons]; omega)
    rw [fits_cons, List.foldl_cons, h.feed_plain hc.seven hc.special, hfold,
      List.reverse_cons, List.append_assoc]
    exact ⟨⟨by omega, hfits⟩, rfl⟩

/-- What is typed for a string gives the string. -/
theorem typedFor (h : Cooked t) {s e : List Byte} (hs : ∀ c ∈ s, c.toNat ≤ 0o177)
    (hlen : s.length ≤ 250) (he : TypedFor s e) :
    Fits t 254 [] e ∧ e.foldl (feed t) [] = s.reverse := by
  cases he with
  | line he => exact h.corrected hs hlen he
  | @killed p e hp hplen he =>
    obtain ⟨hfits, hfold⟩ := h.corrected hs hlen he
    obtain ⟨hpfits, hpfold⟩ :=
      h.ordinary (n := 254) p [] hp (by rw [List.length_nil]; omega)
    have hkill : feed t (p.foldl (feed t) []) (ascii '@') = [] := by
      rw [hpfold, List.append_nil]
      refine h.feed_kill fun hmem => ?_
      exact (hp _ (List.mem_reverse.mp hmem)).backslash rfl
    rw [fits_append, fits_cons, List.foldl_append, List.foldl_cons, hkill]
    exact ⟨⟨hpfits, hpfits p (List.prefix_refl p), hfits⟩, hfold⟩

end Cooked

/-- No delimiter is among the corrections. -/
theorem Corrected.notMem {s e : List Byte} (he : Corrected s e) (hs : ∀ c ∈ s, c.toNat ≤ 0o177) :
    0o377 ∉ e := by
  have hescaped : ∀ c ∈ Tty.escaped s, c.toNat ≤ 0o177 := by
    intro c hc
    obtain ⟨d, hd, hc⟩ := List.mem_flatMap.mp hc
    split at hc
    · rcases List.mem_cons.mp hc with rfl | hc
      · decide
      · rw [List.mem_singleton.mp hc]
        exact hs d hd
    · rw [List.mem_singleton.mp hc]
      exact hs d hd
  have hne : ∀ c : Byte, c.toNat ≤ 0o177 → (0o377 : Byte) ≠ c := by
    rintro c hc rfl
    exact absurd hc (by decide)
  cases he with
  | escaped => exact fun hmem => hne _ (hescaped _ hmem) rfl
  | @erased e₁ e₂ a x b he ha hx hb =>
    rw [he] at hescaped
    intro hmem
    simp only [List.mem_append, List.mem_cons] at hmem hescaped
    rcases hmem with hmem | hmem | hmem | hmem | hmem
    · exact hne _ (hescaped _ (.inl hmem)) rfl
    · exact hne _ ha.seven hmem
    · exact hne _ hx.seven hmem
    · exact absurd hmem (by decide)
    · exact hne _ (hescaped _ (.inr (.inr hmem))) rfl

/-- No delimiter is typed for a string. -/
theorem TypedFor.notMem {s e : List Byte} (he : TypedFor s e) (hs : ∀ c ∈ s, c.toNat ≤ 0o177) :
    0o377 ∉ e := by
  cases he with
  | line he => exact he.notMem hs
  | @killed p e hp hlen he =>
    intro hmem
    rcases List.mem_append.mp hmem with hmem | hmem
    · exact absurd (hp _ hmem).seven (by decide)
    rcases List.mem_cons.mp hmem with hmem | hmem
    · exact absurd hmem (by decide)
    · exact he.notMem hs hmem

/-- What the buffer may hold when `canon` is called: whatever earlier calls have left there. -/
def Buffer (canonb : ℕ → Byte) : Prop :=
  ∃ be cfree c_next info t, 0 < cfree ∧
    Reachable (ttyStep be) (fun _ _ => True) (klopen cfree c_next info) t ∧ canonb = t.canonb

theorem Buffer.guard {canonb : ℕ → Byte} (h : Buffer canonb) : canonb 1 = 0 := by
  obtain ⟨be, cfree, c_next, info, t, hcfree, hreach, rfl⟩ := h
  exact (counted_of_reachable hcfree hreach).guard

/-- A line comes out of `canon` as it was before its special characters were escaped, also after
corrections and a killed beginning. -/
theorem canon_typedFor {s e : List Byte} (hcooked : Cooked t) (hlen : s.length ≤ 250)
    (hs : ∀ c ∈ s, 1 ≤ c.toNat ∧ c.toNat ≤ 0o177) (he : TypedFor s e) (h : Inv P t.cl lay free)
    (hraw : t.cl.pending .t_rawq = e ++ [0o377]) (hdel : t.t_delct = 1) (hbuf : Buffer t.canonb) :
    ∃ t', t.canon = some (1, t') ∧ t'.cl.pending .t_canq = t.cl.pending .t_canq ++ s ∧
      t'.cl.pending .t_rawq = [] := by
  have hseven : ∀ c ∈ s, c.toNat ≤ 0o177 := fun c hc => (hs c hc).2
  obtain ⟨hfits, hfold⟩ := hcooked.typedFor hseven hlen he
  obtain ⟨canonb, hline, hscan⟩ := scan_line [] (Holds.nil t.canonb) hbuf.guard
    (he.notMem hseven) hfits
  have hdel0 : t.t_delct ≠ 0 := by
    rw [hdel]
    decide
  obtain ⟨cl, hrun, -, hpending⟩ := canon_eq h hdel0
  rw [List.length_nil, Nat.add_zero, ← hraw] at hscan
  rw [hscan] at hrun hpending
  refine ⟨_, hrun, ?_, ?_⟩
  · -- the raw queue has given back more than the line needs
    have hbound := length_foldl_feed_le t [] e
    have hroom := length_le_roomFor t free.length
    rw [hraw, List.length_append] at hroom
    rw [hfold, List.length_reverse] at hbound
    rw [Holds, hfold, List.reverse_reverse] at hline
    show cl.pending .t_canq = _
    rw [hpending, update_self, hfold, hline, List.take_of_length_le]
    rw [List.length_nil] at hbound ⊢
    omega
  · show cl.pending .t_rawq = _
    rw [hpending, update_of_ne (show TtyQ.t_rawq ≠ .t_canq by decide), update_self]

/-- A beginning that is killed, a correction, and a character that is escaped. -/
def typeEscape : List TtyCall :=
  [ascii 'b', ascii '@', ascii 'a', ascii 'x', ascii '#', ascii 'b', ascii '\\', ascii '#',
    ascii '\n'].map (.ttyinput 9)

/-- The escaped `#` is in the line, and the erased character is not. -/
theorem canon_typeEscape : ∃ t t', runSteps (ttyStep .bios) typeEscape opened = some t ∧
    t.canon = some (1, t') ∧ t'.cl.pending .t_canq =
      t.cl.pending .t_canq ++ [ascii 'a', ascii 'b', ascii '#', ascii '\n'] ∧
    t'.cl.pending .t_rawq = [] := by
  obtain ⟨t, ht, hend⟩ := (Option.any_eq_true _ _).mp (show
    (runSteps (ttyStep .bios) typeEscape opened).any
      (fun t => decide (t.cl.pending .t_rawq = [ascii 'b', ascii '@', ascii 'a', ascii 'x',
          ascii '#', ascii 'b', ascii '\\', ascii '#', ascii '\n', 0o377] ∧ t.t_delct = 1 ∧
        t.mode RAW = false ∧ t.mode LCASE = false ∧ t.t_erase = ascii '#' ∧
        t.t_kill = ascii '@')) = true
    from by decide +kernel)
  obtain ⟨hraw, hdel, hcooked, hlcase, herase, hkill⟩ := of_decide_eq_true hend
  have hreach : Reachable (ttyStep .bios) (fun _ _ => True) opened t :=
    Reachable.refl.of_runSteps ht
  obtain ⟨lay, free, hinv⟩ := (counted_of_reachable (show 0 < 0x1000 by decide) hreach).wf
  have ordinary : ∀ c : Byte, c.toNat ≤ 0o177 → ¬Special c → c ≠ ascii '\\' → Ordinary c :=
    fun _ hseven hspecial hback => ⟨hseven, hspecial, hback⟩
  -- `x` is erased
  have hcorrected : Corrected [ascii 'a', ascii 'b', ascii '#', ascii '\n']
      ([] ++ ascii 'a' :: ascii 'x' :: ascii '#' :: ascii 'b' ::
        [ascii '\\', ascii '#', ascii '\n']) :=
    .erased (by decide) (ordinary _ (by decide) (by decide) (by decide))
      (ordinary _ (by decide) (by decide) (by decide))
      (ordinary _ (by decide) (by decide) (by decide))
  -- and `b` is killed
  have htyped : TypedFor _ ([ascii 'b'] ++ ascii '@' :: _) :=
    .killed (fun c hc => by
      rw [List.mem_singleton.mp hc]
      exact ordinary _ (by decide) (by decide) (by decide)) (by decide) hcorrected
  obtain ⟨t', hrun, hcan, hrest⟩ := canon_typedFor ⟨hcooked, hlcase, herase, hkill⟩ (by decide)
    (by decide) htyped hinv hraw hdel
    ⟨.bios, 0x1000, fun _ => 0, fun _ => 0, t, by decide, hreach, rfl⟩
  exact ⟨t, t', ht, hrun, hcan, hrest⟩

end UnixV6.Tty
