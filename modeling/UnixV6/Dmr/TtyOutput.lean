import UnixV6.Dmr.Tty

/-!
# Output to the terminal

When `ttyoutput` returns, and what the device gets of the output queue.
-/

open Function

namespace UnixV6.Tty

variable {P : Set ℕ} {t t' : Tty} {lay : TtyQ → Layout} {free : List ℕ}

/-! ## The recursion of `ttyoutput` -/

/-- Without room in the output queue nothing is sent, and the column stays. -/
theorem send_full (h : Inv P t.cl lay free) (hroom : t.cl.room free .t_outq = 0) (c : Byte) :
    t.send c = t := by
  simp only [send, putc, h.putc_full c hroom]
  rfl

/-- The same where the last block of the queue is full and the free list is empty. -/
theorem send_nospace (hcl : (t.cl.q .t_outq).c_cl % 8 = 0) (hfree : t.cl.cfreelist = 0)
    (c : Byte) : t.send c = t := by
  have hputc : t.cl.putc c .t_outq = (-1, t.cl) := by
    simp only [TtySys.putc, hfree, hcl]
    split <;> rfl
  simp only [send, putc, hputc]
  rfl

/-- A blank that fits advances the column. -/
theorem send_blank (h : Inv P t.cl lay free) (hroom : t.cl.room free .t_outq ≠ 0) :
    (t.send (ascii ' ')).t_col = t.t_col + 1 ∧
      ∃ lay' free', Inv P (t.send (ascii ' ')).cl lay' free' ∧
        (t.send (ascii ' ')).cl.room free' .t_outq + 1 = t.cl.room free .t_outq := by
  obtain ⟨hret, -, -, L, free', h', hroom', -⟩ := h.putc_room (ascii ' ') hroom
  have hclass : partab (ascii ' ') &&& 0o77 = 0 := by decide
  have hdelay : delay t.t_flags 0 t.t_col = (t.t_col + 1, 0) := rfl
  have hsend : t.send (ascii ' ') =
      { t with cl := (t.cl.putc (ascii ' ') .t_outq).2, t_col := t.t_col + 1 } := by
    simp only [send, putc, hret, hclass, hdelay]
    rfl
  rw [hsend]
  exact ⟨rfl, _, free', h', hroom'⟩

/-- A character that is sent as it is, at most in upper case. -/
structure Plain (c : Byte) : Prop where
  ascii : c &&& 0o177 = c
  eot : c ≠ CEOT
  tab : c ≠ Tty.ascii '\t'
  newline : upper c ≠ Tty.ascii '\n' ∧ c ≠ Tty.ascii '\n'
  escape : escape c = none

/-- An ordinary character is sent, in upper case if the terminal has no lower case. -/
theorem Plain.ttyoutput {c : Byte} (hc : Plain c) (n : ℕ) (t : Tty) :
    t.ttyoutput (n + 1) c = some (t.send (if t.mode LCASE then upper c else c)) := by
  have hnl : (if t.mode LCASE = true then upper c else c) ≠ Tty.ascii '\n' := by
    split
    · exact hc.newline.1
    · exact hc.newline.2
  simp only [Tty.ttyoutput, hc.ascii]
  rw [if_neg (fun h => hc.eot h.1), if_neg (fun h => hc.tab h.1), hc.escape]
  simp [hnl]

theorem plain_blank : Plain (ascii ' ') := by
  constructor <;> decide

theorem plain_backslash : Plain (ascii '\\') := by
  constructor <;> decide

theorem plain_return : Plain (ascii '\r') := by
  constructor <;> decide

/-- One round of the loop. -/
theorem tabLoop_succ (n : ℕ) (t : Tty) :
    t.tabLoop (n + 2) = if (t.send (ascii ' ')).t_col &&& 0o7 ≠ 0
      then (t.send (ascii ' ')).tabLoop (n + 1) else some (t.send (ascii ' ')) := by
  have hupper : (if t.mode LCASE = true then upper (ascii ' ') else ascii ' ') = ascii ' ' := by
    split
    · decide
    · rfl
  rw [tabLoop, plain_blank.ttyoutput, hupper]
  rfl

/-- The loop of a tab ends at once, or after a blank more. -/
theorem tabLoop_returns_succ (t : Tty) :
    (∃ fuel, (t.tabLoop fuel).isSome) ↔ (t.send (ascii ' ')).t_col &&& 0o7 = 0 ∨
      ∃ fuel, ((t.send (ascii ' ')).tabLoop fuel).isSome := by
  constructor
  · rintro ⟨fuel, hfuel⟩
    match fuel, hfuel with
    | n + 2, hfuel =>
      rw [tabLoop_succ] at hfuel
      split at hfuel
      · exact .inr ⟨n + 1, hfuel⟩
      · exact .inl (not_not.mp ‹_›)
  · rintro (hcol | ⟨fuel, hfuel⟩)
    · refine ⟨2, ?_⟩
      rw [tabLoop_succ 0 t, if_neg (not_not.mpr hcol)]
      rfl
    · match fuel, hfuel with
      | n + 1, hfuel =>
        refine ⟨n + 2, ?_⟩
        rw [tabLoop_succ]
        split
        · exact hfuel
        · rfl

/-- A round that changes nothing is followed by another one, unless the column is at a tab stop. -/
theorem tabLoop_stuck (hstay : t.send (ascii ' ') = t) (hcol : t.t_col &&& 0o7 ≠ 0) (n : ℕ) :
    t.tabLoop n = none := by
  have hsucc : ∀ n, t.tabLoop (n + 1) = none := by
    intro n
    induction n with
    | zero => rfl
    | succ n ih => rw [tabLoop_succ, hstay, if_pos hcol, ih]
  cases n with
  | zero => rfl
  | succ n => exact hsucc n

/-- The column is at a tab stop. -/
theorem and_seven_eq_zero_iff (col : Byte) : col &&& 0o7 = 0 ↔ col.toNat % 8 = 0 := by
  rw [← BitVec.toNat_inj, BitVec.toNat_and]
  exact Eq.congr_left (Nat.and_two_pow_sub_one_eq_mod col.toNat 3)

/-- The loop ends if the blanks up to the next tab stop fit. If there is no room for the first one,
it ends only where it is at a tab stop already. -/
theorem tabLoop_returns_iff (h : Inv P t.cl lay free) :
    (∃ fuel, (t.tabLoop fuel).isSome) ↔ 8 - t.t_col.toNat % 8 ≤ t.cl.room free .t_outq ∨
      t.cl.room free .t_outq = 0 ∧ t.t_col.toNat % 8 = 0 := by
  induction hr : t.cl.room free .t_outq generalizing t lay free with
  | zero =>
    have hmod := Nat.mod_lt t.t_col.toNat (show 0 < 8 by decide)
    -- nothing is sent, so the column stays
    have hstay := send_full h hr (ascii ' ')
    constructor
    · rintro ⟨fuel, hfuel⟩
      right
      refine ⟨rfl, ?_⟩
      by_contra hcol
      rw [← and_seven_eq_zero_iff] at hcol
      rw [tabLoop_stuck hstay hcol fuel] at hfuel
      exact Bool.false_ne_true hfuel
    · rintro (hroom | ⟨-, hcol⟩)
      · omega
      · rw [tabLoop_returns_succ, hstay]
        exact .inl ((and_seven_eq_zero_iff _).mpr hcol)
  | succ r ih =>
    have hroom : t.cl.room free .t_outq ≠ 0 := by omega
    -- each blank takes one place and moves one column
    obtain ⟨hcol, lay', free', h', hroom'⟩ := send_blank h hroom
    have hmod : (t.t_col + 1).toNat % 8 = (t.t_col.toNat + 1) % 8 := by
      rw [BitVec.toNat_add]
      show (t.t_col.toNat + 1) % 256 % 8 = _
      omega
    rw [tabLoop_returns_succ, ih h' (by omega), and_seven_eq_zero_iff, hcol, hmod]
    omega

/-- The three parts of what is sent for a character. -/
theorem ttyoutput_succ {fuel : ℕ} {c : Byte} (heot : ¬(c &&& 0o177 = CEOT ∧ !t.mode RAW))
    (htab : ¬(c &&& 0o177 = ascii '\t' ∧ t.mode XTABS)) :
    t.ttyoutput (fuel + 1) c =
      let c := c &&& 0o177
      (if t.mode LCASE ∧ (escape c).isSome then t.ttyoutput fuel (ascii '\\') else some t).bind
        fun t =>
          let c := if t.mode LCASE then upper c else c
          (if c = ascii '\n' ∧ t.mode CRMOD then t.ttyoutput fuel (ascii '\r') else some t).bind
            fun t => some (t.send c) := by
  simp only [ttyoutput, if_neg heot, if_neg htab]
  rfl

/-- Anything but a tab takes two levels of recursion. -/
theorem ttyoutput_isSome {c : Byte} (t : Tty)
    (hc : ¬(c &&& 0o177 = ascii '\t' ∧ t.mode XTABS)) : (t.ttyoutput 2 c).isSome := by
  by_cases heot : c &&& 0o177 = CEOT ∧ !t.mode RAW
  · simp only [ttyoutput, if_pos heot]
    rfl
  have plain : ∀ {p : Prop} [Decidable p] {c : Byte} (t : Tty), Plain c →
      ∃ t', (if p then t.ttyoutput 1 c else some t) = some t' := by
    intro p _ c t hc
    split
    · exact ⟨_, hc.ttyoutput 0 t⟩
    · exact ⟨t, rfl⟩
  rw [ttyoutput_succ heot hc]
  obtain ⟨t₁, h₁⟩ := plain (p := t.mode LCASE ∧ (escape (c &&& 0o177)).isSome) t plain_backslash
  simp only [h₁, Option.bind_some]
  obtain ⟨t₂, h₂⟩ := plain (p := (if t₁.mode LCASE then upper (c &&& 0o177) else c &&& 0o177) =
    ascii '\n' ∧ t₁.mode CRMOD) t₁ plain_return
  rw [h₂]
  rfl

/-- `ttyoutput` returns unless it expands a tab and the blanks up to the next tab stop do not fit;
and even then if there is no room for a single one and the column is at a tab stop already. -/
theorem ttyoutput_returns_iff (h : Inv P t.cl lay free) (c : Byte) :
    (∃ fuel, (t.ttyoutput fuel c).isSome) ↔ ¬(c &&& 0o177 = ascii '\t' ∧ t.mode XTABS) ∨
      8 - t.t_col.toNat % 8 ≤ t.cl.room free .t_outq ∨
      t.cl.room free .t_outq = 0 ∧ t.t_col.toNat % 8 = 0 := by
  by_cases htab : c &&& 0o177 = ascii '\t' ∧ t.mode XTABS
  · rw [← tabLoop_returns_iff h]
    have heot : ascii '\t' ≠ CEOT := by decide
    have hsucc : ∀ n, t.ttyoutput (n + 1) c = t.tabLoop n := by
      intro n
      simp only [ttyoutput, htab.1]
      rw [if_neg (fun h => heot h.1), if_pos ⟨trivial, htab.2⟩]
    constructor
    · rintro ⟨fuel, hfuel⟩
      match fuel, hfuel with
      | n + 1, hfuel => exact .inr ⟨n, by rwa [← hsucc]⟩
    · rintro (hnot | ⟨fuel, hfuel⟩)
      · exact absurd htab hnot
      · exact ⟨fuel + 1, by rwa [hsucc]⟩
  · exact iff_of_true ⟨2, ttyoutput_isSome t htab⟩ (.inl htab)

/-- An open terminal has empty queues. -/
theorem inv_klopen {cfree : ℕ} (hcfree : 0 < cfree) (c_next : ℕ → ℕ) (info : ℕ → Byte) :
    ∃ free, Inv (pool cfree) (klopen cfree c_next info).cl (fun _ => ⟨[], 0, 0⟩) free :=
  inv_cinit hcfree c_next info

/-- The terminal of the examples. -/
def opened : Tty := klopen 0x1000 (fun _ => 0) fun _ => 0

/-- A tab on a terminal that has just been opened. -/
theorem ttyoutput_returns_opened : ∃ free,
    (∃ fuel, (opened.ttyoutput fuel (ascii '\t')).isSome) ↔
      ¬(ascii '\t' &&& 0o177 = ascii '\t' ∧ opened.mode XTABS) ∨
      8 - opened.t_col.toNat % 8 ≤ opened.cl.room free .t_outq ∨
      opened.cl.room free .t_outq = 0 ∧ opened.t_col.toNat % 8 = 0 := by
  obtain ⟨free, h⟩ := inv_klopen (show 0 < 0x1000 by decide) (fun _ => 0) fun _ => 0
  exact ⟨free, ttyoutput_returns_iff (t := opened) h (ascii '\t')⟩

/-- What is typed. -/
def typeAll (be : Backend) (fuel : ℕ) (cs : List Byte) (t : Tty) : Option Tty :=
  cs.foldlM (fun t c => t.ttyinput be fuel c) t

/-- A newline and then tabs, echoed by a UART that sends the first character only. -/
def typeTabs : List Byte := ascii '\n' :: List.replicate 65 (ascii '\t')

/-- The screen after so many blanks. -/
def blanks : ℕ → Tty → Tty
  | 0, t => t
  | n + 1, t => blanks n (t.send (ascii ' '))

/-- A tab that does not end after `n` blanks does not end. -/
theorem blanks_hang (n : ℕ) (hcol : ∀ j < n, (blanks (j + 1) t).t_col &&& 0o7 ≠ 0)
    (hstuck : ∀ fuel, (blanks n t).tabLoop fuel = none) : ∀ fuel, t.tabLoop fuel = none := by
  induction n generalizing t with
  | zero => exact hstuck
  | succ n ih =>
    have hnext := ih (fun j hj => hcol (j + 1) (by omega)) hstuck
    rintro (- | - | fuel)
    · rfl
    · rfl
    · have hfirst : (t.send (ascii ' ')).t_col &&& 0o7 ≠ 0 := hcol 0 (by omega)
      rw [tabLoop_succ, if_pos hfirst, hnext]

/-- The pool runs out in the middle of the 66th tab. -/
theorem ttyoutput_typeTabs : ∃ t, typeAll .uart 20 typeTabs opened = some t ∧
    ¬∃ fuel, (t.ttyoutput fuel (ascii '\t')).isSome := by
  obtain ⟨t, ht, hend⟩ := (Option.any_eq_true _ _).mp (show
    (typeAll .uart 20 typeTabs (klopen 0x1000 (fun _ => 0) fun _ => 0)).any
      (fun t => decide (t.mode XTABS ∧ (∀ j < 6, (blanks (j + 1) t).t_col &&& 0o7 ≠ 0) ∧
        ((blanks 6 t).cl.q .t_outq).c_cl % 8 = 0 ∧ (blanks 6 t).cl.cfreelist = 0)) = true
    from by decide +kernel)
  obtain ⟨htabs, hcol, hcl, hfree⟩ := of_decide_eq_true hend
  have hloop := blanks_hang 6 hcol
    (tabLoop_stuck (send_nospace hcl hfree (ascii ' ')) (hcol 5 (by decide)))
  refine ⟨t, ht, ?_⟩
  rintro ⟨- | fuel, hfuel⟩
  · exact Bool.false_ne_true hfuel
  · have htab : ¬(ascii '\t' &&& 0o177 = CEOT ∧ (!t.mode RAW) = true) := fun h =>
      absurd h.1 (by decide)
    rw [ttyoutput] at hfuel
    simp only at hfuel
    rw [if_neg htab, if_pos ⟨by decide, htabs⟩, hloop] at hfuel
    exact Bool.false_ne_true hfuel

/-! ## What `ttyoutput` changes -/

/-- The queues divide the pool as they should. -/
def Wf (P : Set ℕ) (t : Tty) : Prop := ∃ lay free, Inv P t.cl lay free

/-- From `t` to `t'` the output queue may have got more characters. -/
structure Emits (P : Set ℕ) (t t' : Tty) : Prop where
  wf : Wf P t'
  frame : t' = { t with cl := t'.cl, t_col := t'.t_col }
  taken : t'.cl.taken = t.cl.taken
  pending : ∀ i ≠ .t_outq, t'.cl.pending i = t.cl.pending i

/-- An open terminal is in order. -/
theorem wf_klopen {cfree : ℕ} (hcfree : 0 < cfree) (c_next : ℕ → ℕ) (info : ℕ → Byte) :
    Wf (pool cfree) (klopen cfree c_next info) := by
  obtain ⟨free, h⟩ := inv_klopen hcfree c_next info
  exact ⟨_, free, h⟩

theorem Emits.refl (h : Wf P t) : Emits P t t := ⟨h, rfl, rfl, fun _ _ => rfl⟩

/-- Two pieces of output. -/
theorem Emits.trans {t₁ t₂ t₃ : Tty} (h : Emits P t₁ t₂) (h' : Emits P t₂ t₃) :
    Emits P t₁ t₃ where
  wf := h'.wf
  frame := by
    rw [h'.frame, h.frame]
  taken := h'.taken.trans h.taken
  pending i hi := (h'.pending i hi).trans (h.pending i hi)

/-- `putc` to the output queue. -/
theorem Emits.putc (h : Wf P t) (c : Byte) (col : Byte) :
    Emits P t { (t.putc c .t_outq).2 with t_col := col } := by
  obtain ⟨lay, free, h⟩ := h
  obtain ⟨htaken, hpending, L, free', h'⟩ := h.putc_other (i := .t_outq) c
  exact ⟨⟨_, free', h'⟩, rfl, htaken, hpending⟩

theorem Emits.send (h : Wf P t) (c : Byte) : Emits P t (t.send c) := by
  simp only [Tty.send]
  have hput := Emits.putc h c
  split_ifs
  · exact hput t.t_col
  · have hfirst := hput (delay t.t_flags (partab c &&& 0o77) t.t_col).1
    exact hfirst.trans (Emits.putc hfirst.wf _ _)
  · exact hput _

/-- `ttyoutput` does nothing but to emit characters, and so does its loop. -/
theorem emits_of_fuel (fuel : ℕ) :
    (∀ c t t', Wf P t → ttyoutput fuel c t = some t' → Emits P t t') ∧
      ∀ t t', Wf P t → tabLoop fuel t = some t' → Emits P t t' := by
  induction fuel with
  | zero =>
    exact ⟨fun _ _ _ _ h => by simp [ttyoutput] at h, fun _ _ _ h => by simp [tabLoop] at h⟩
  | succ fuel ih =>
    obtain ⟨hout, hloop⟩ := ih
    -- an escape and a return may be sent before the character itself
    have optional : ∀ {p : Prop} [Decidable p] {r : Option Tty} (t t' : Tty), Wf P t →
        (r = some t' → Emits P t t') → (if p then r else some t) = some t' → Emits P t t' := by
      intro p _ r t t' h hr hrun
      split at hrun
      · exact hr hrun
      · rw [← Option.some.inj hrun]
        exact Emits.refl h
    refine ⟨fun c t t' h hrun => ?_, fun t t' h hrun => ?_⟩
    · by_cases heot : c &&& 0o177 = CEOT ∧ !t.mode RAW
      · simp only [ttyoutput, if_pos heot, Option.some.injEq] at hrun
        rw [← hrun]
        exact Emits.refl h
      by_cases htab : c &&& 0o177 = ascii '\t' ∧ t.mode XTABS
      · simp only [ttyoutput, if_neg heot, if_pos htab] at hrun
        exact hloop t t' h hrun
      rw [ttyoutput_succ heot htab] at hrun
      obtain ⟨t₁, h₁, hrun⟩ := Option.bind_eq_some_iff.mp hrun
      obtain ⟨t₂, h₂, hrun⟩ := Option.bind_eq_some_iff.mp hrun
      have hescape := optional t t₁ h (hout _ t t₁ h) h₁
      have hreturn := optional t₁ t₂ hescape.wf (hout _ t₁ t₂ hescape.wf) h₂
      rw [← Option.some.inj hrun]
      exact (hescape.trans hreturn).trans (Emits.send hreturn.wf _)
    · obtain ⟨t₁, h₁, hrun⟩ := Option.bind_eq_some_iff.mp hrun
      have hblank := hout _ t t₁ h h₁
      split at hrun
      · exact hblank.trans (hloop t₁ t' hblank.wf hrun)
      · rw [← Option.some.inj hrun]
        exact hblank

/-! ## Delays -/

/-- What is to become of these bytes of the output queue. -/
def schedule (cs : List Byte) : List OutEvent :=
  cs.flatMap fun c => if c.toNat ≤ 0o177 then [.sent c] else [.started (c &&& 0o177), .fired]

/-- What is sent for characters one after another. -/
theorem schedule_append (cs cs' : List Byte) :
    schedule (cs ++ cs') = schedule cs ++ schedule cs' := List.flatMap_append

/-- Ordinary characters are sent as they are. -/
theorem schedule_ordinary {cs : List Byte} (h : ∀ c ∈ cs, c.toNat ≤ 0o177) :
    schedule cs = cs.map .sent := by
  induction cs with
  | nil => rfl
  | cons c cs ih =>
    have hc := h c List.mem_cons_self
    rw [List.map_cons, ← ih fun x hx => h x (List.mem_cons_of_mem c hx)]
    simp [schedule, hc]

/-- `ttstart` gets to the output queue. -/
def Ready (t : Tty) : Prop := ¬t.is SSTART ∧ ¬(t.tttcsr &&& DONE = 0 ∨ t.is TIMEOUT)

theorem ttstart_of_not_ready (be : Backend) (h : ¬Ready t) : t.ttstart be = some t := by
  simp only [Ready, not_and, not_not] at h
  by_cases hstart : t.is SSTART
  · rw [ttstart, if_pos hstart]
  · rw [ttstart, if_neg hstart, if_pos (h hstart)]

/-- `ttstart` does nothing without characters. -/
theorem ttstart_nil (be : Backend) (h : Inv P t.cl lay free) (hready : Ready t)
    (hp : t.cl.pending .t_outq = []) : t.ttstart be = some t := by
  simp only [ttstart, if_neg hready.1, if_neg hready.2, Tty.getc, h.getc_nil hp]
  rfl

/-- A delay is at the head of the queue. -/
theorem ttstart_delay (be : Backend) {c : Byte} {cs : List Byte} (h : Inv P t.cl lay free)
    (hready : Ready t) (hp : t.cl.pending .t_outq = c :: cs) (hc : 0o177 < c.toNat) :
    t.ttstart be = some { t with
      cl := (t.cl.getc .t_outq).2
      callout := t.callout ++ [c &&& 0o177]
      log := t.log ++ [.started (c &&& 0o177)]
      t_state := t.t_state ||| TIMEOUT } := by
  obtain ⟨hret, -⟩ := h.getc_cons hp
  have hpos : (0 : ℤ) ≤ c.toNat := by omega
  have hlarge : ¬(c.toNat : ℤ) ≤ 0o177 := by omega
  simp only [ttstart, if_neg hready.1, if_neg hready.2, Tty.getc, hret, if_pos hpos,
    if_neg hlarge, BitVec.ofInt_natCast, BitVec.ofNat_toNat, BitVec.setWidth_eq]

/-- The UART gets one character. -/
theorem ttstart_uart {c : Byte} {cs : List Byte} (h : Inv P t.cl lay free) (hready : Ready t)
    (hp : t.cl.pending .t_outq = c :: cs) (hc : c.toNat ≤ 0o177) :
    t.ttstart .uart = some { t with
      cl := (t.cl.getc .t_outq).2
      tttbuf := (c ||| partab c &&& 0o200).setWidth 16
      tttcsr := t.tttcsr &&& ~~~DONE
      log := t.log ++ [.sent c] } := by
  obtain ⟨hret, -⟩ := h.getc_cons hp
  have hpos : (0 : ℤ) ≤ c.toNat := by omega
  have hsmall : (c.toNat : ℤ) ≤ 0o177 := by omega
  simp only [ttstart, if_neg hready.1, if_neg hready.2, Tty.getc, hret, if_pos hpos,
    if_pos hsmall, BitVec.ofInt_natCast, BitVec.ofNat_toNat, BitVec.setWidth_eq]

/-- The loop over the rest of the queue sends all of it. -/
theorem drain_eq {c : Byte} {cs : List Byte} {n : ℕ} (h : Inv P t.cl lay free)
    (hp : t.cl.pending .t_outq = cs) (hn : cs.length < n) :
    ∃ cl lay' free', t.drain n c.toNat =
        some { t with cl := cl, log := t.log ++ (c :: cs).map .sent } ∧
      Inv P cl lay' free' ∧ cl.taken .t_outq = t.cl.taken .t_outq ++ cs ∧
      ∀ i ≠ .t_outq, cl.pending i = t.cl.pending i := by
  induction cs generalizing t lay free c n with
  | nil =>
    obtain ⟨n, rfl⟩ : ∃ m, n = m + 1 := ⟨n - 1, by omega⟩
    refine ⟨t.cl, lay, free, ?_, h, by simp, fun _ _ => rfl⟩
    simp only [drain, Tty.getc, h.getc_nil hp, BitVec.ofInt_natCast, BitVec.ofNat_toNat,
      BitVec.setWidth_eq]
    rfl
  | cons d cs ih =>
    obtain ⟨n, rfl⟩ : ∃ m, n = m + 1 := ⟨n - 1, by simp only [List.length_cons] at hn; omega⟩
    obtain ⟨hret, hpending, htaken, L, free₁, h₁, -⟩ := h.getc_cons hp
    -- the state when the next character is about to be sent
    obtain ⟨cl, lay', free', hrun, h', htaken', hother⟩ := ih
      (t := { t with cl := (t.cl.getc .t_outq).2, log := t.log ++ [.sent c] }) (c := d) (n := n) h₁
      (by rw [hpending, update_self]) (by simp only [List.length_cons] at hn; omega)
    have hpos : (0 : ℤ) ≤ d.toNat := by omega
    refine ⟨cl, lay', free', ?_, h', ?_, fun i hi => ?_⟩
    · simp only [drain, Tty.getc, hret, if_pos hpos, BitVec.ofInt_natCast, BitVec.ofNat_toNat,
        BitVec.setWidth_eq]
      rw [hrun]
      simp
    · rw [htaken', htaken, update_self, List.append_assoc, List.singleton_append]
    · rw [hother i hi, hpending, update_of_ne hi]

/-- The screen gets whatever is queued. -/
theorem ttstart_bios {c : Byte} {cs : List Byte} (h : Inv P t.cl lay free) (hready : Ready t)
    (hp : t.cl.pending .t_outq = c :: cs) (hc : c.toNat ≤ 0o177) :
    ∃ cl lay' free', t.ttstart .bios =
        some { t with cl := cl, log := t.log ++ (c :: cs).map .sent } ∧
      Inv P cl lay' free' ∧ cl.taken .t_outq = t.cl.taken .t_outq ++ c :: cs ∧
      ∀ i ≠ .t_outq, cl.pending i = t.cl.pending i := by
  obtain ⟨hret, hpending, htaken, L, free₁, h₁, -⟩ := h.getc_cons hp
  have hpos : (0 : ℤ) ≤ c.toNat := by omega
  have hsmall : (c.toNat : ℤ) ≤ 0o177 := by omega
  have hrounds : t.rounds .t_outq = cs.length + 2 := by
    simp only [rounds, count, h.cc_eq, hp, List.length_cons]
    omega
  obtain ⟨cl, lay', free', hrun, h', htaken', hother⟩ :=
    drain_eq (t := { t with cl := (t.cl.getc .t_outq).2 }) (c := c) (n := cs.length + 2) h₁
      (by rw [hpending, update_self]) (by omega)
  refine ⟨cl, lay', free', ?_, h', ?_, fun i hi => ?_⟩
  · simp only [ttstart, if_neg hready.1, if_neg hready.2, Tty.getc, hret, if_pos hpos,
      if_pos hsmall, hrounds]
    exact hrun
  · rw [htaken', htaken, update_self, List.append_assoc, List.singleton_append]
  · rw [hother i hi, hpending, update_of_ne hi]

/-- What has been taken from the output queue is sent or delayed as it should be, but for the
timeout that still runs. -/
structure Paced (P : Set ℕ) (t : Tty) : Prop where
  wf : Wf P t
  log : t.log ++ t.callout.map (fun _ => .fired) = schedule (t.cl.taken .t_outq)
  callout : t.callout.length = if t.is TIMEOUT then 1 else 0

/-- A delay byte is in the queue behind a character. -/
def Mixed (cs : List Byte) : Prop :=
  ∃ c cs', cs = c :: cs' ∧ c.toNat ≤ 0o177 ∧ ∃ d ∈ cs', 0o177 < d.toNat

theorem is_set (b : Byte) : ((b ||| TIMEOUT) &&& TIMEOUT != 0) = true := by
  revert b
  decide

theorem is_clear (b : Byte) : ((b &&& ~~~TIMEOUT) &&& TIMEOUT != 0) = false := by
  revert b
  decide

/-- `ttstart` sends what has been queued, unless the BIOS has delays among it. -/
theorem Paced.ttstart (be : Backend) (h : Paced P t)
    (hbe : be = .bios → Ready t → ¬Mixed (t.cl.pending .t_outq)) :
    ∃ t', t.ttstart be = some t' ∧ Paced P t' := by
  by_cases hready : Ready t
  swap
  · exact ⟨t, ttstart_of_not_ready be hready, h⟩
  obtain ⟨lay, free, hinv⟩ := h.wf
  have htimeout : t.is TIMEOUT = false := by
    have := hready.2
    rw [not_or] at this
    exact eq_false_of_ne_true this.2
  have hcallout : t.callout = [] := by
    have hlen := h.callout
    rw [htimeout] at hlen
    exact List.length_eq_zero_iff.mp hlen
  have hlog : t.log = schedule (t.cl.taken .t_outq) := by
    rw [← h.log, hcallout, List.map_nil, List.append_nil]
  rcases hp : t.cl.pending .t_outq with - | ⟨c, cs⟩
  · exact ⟨t, ttstart_nil be hinv hready hp, h⟩
  obtain ⟨-, -, htaken, L, free', hinv', -⟩ := hinv.getc_cons hp
  rcases Nat.lt_or_ge 0o177 c.toNat with hc | hc
  · -- a delay
    refine ⟨_, ttstart_delay be hinv hready hp hc, ⟨_, free', hinv'⟩, ?_, ?_⟩
    · simp only [hcallout, htaken, update_self, schedule_append, ← hlog]
      simp [schedule, Nat.not_le.mpr hc]
    · simp only [hcallout, is, is_set]
      rfl
  cases be with
  | uart =>
    refine ⟨_, ttstart_uart hinv hready hp hc, ⟨_, free', hinv'⟩, ?_, ?_⟩
    · simp only [hcallout, htaken, update_self, schedule_append, ← hlog]
      simp [schedule, hc]
    · exact h.callout
  | bios =>
    -- all that is queued are characters
    have hordinary : ∀ d ∈ c :: cs, d.toNat ≤ 0o177 := by
      intro d hd
      by_contra hlarge
      rcases List.mem_cons.mp hd with rfl | hd
      · exact hlarge hc
      · exact hbe rfl hready ⟨c, cs, hp, hc, d, hd, Nat.not_le.mp hlarge⟩
    obtain ⟨cl, lay', free'', hrun, h', htaken', -⟩ := ttstart_bios hinv hready hp hc
    refine ⟨_, hrun, ⟨_, free'', h'⟩, ?_, ?_⟩
    · simp only [hcallout, htaken', schedule_append, ← hlog, schedule_ordinary hordinary]
      simp
    · exact h.callout

/-- What can happen to a terminal as far as its output goes. -/
inductive OutAct
  | ttyoutput (fuel : ℕ) (c : Byte)
  | ttstart
  | ttrstrt
  | kltxintr
  deriving DecidableEq, Repr

def outStep (be : Backend) (t : Tty) : OutAct → Option Tty
  | .ttyoutput fuel c => t.ttyoutput fuel c
  | .ttstart => t.ttstart be
  | .ttrstrt => t.ttrstrt be
  | .kltxintr => t.kltxintr be

/-- The state in which the call gets to `ttstart`. -/
def starting (t : Tty) : OutAct → Option Tty
  | .ttyoutput _ _ => none
  | .ttstart => some t
  | .ttrstrt => some { t with t_state := t.t_state &&& ~~~TIMEOUT }
  | .kltxintr => some { t with tttcsr := t.tttcsr ||| DONE }

/-- The screen is not given a character while a delay is queued behind it. -/
def Unmixed (be : Backend) (t : Tty) (a : OutAct) : Prop :=
  be = .bios → ∀ t₁, starting t a = some t₁ → Ready t₁ → ¬Mixed (t.cl.pending .t_outq)

/-- Every step keeps the delays. -/
theorem Paced.step {be : Backend} {a : OutAct} (h : Paced P t) (ha : Unmixed be t a)
    (hs : outStep be t a = some t') : Paced P t' := by
  cases a with
  | ttyoutput fuel c =>
    have hemits := (emits_of_fuel fuel).1 c t t' h.wf hs
    refine ⟨hemits.wf, ?_, ?_⟩
    · rw [hemits.taken, hemits.frame, ← h.log]
    · rw [hemits.frame]
      exact h.callout
  | ttstart =>
    obtain ⟨t₁, hrun, h'⟩ := h.ttstart be fun hbe hready => ha hbe t rfl hready
    rw [outStep, hrun] at hs
    rwa [← Option.some.inj hs]
  | ttrstrt =>
    simp only [outStep, ttrstrt] at hs
    split at hs
    · exact absurd hs (by simp)
    case h_2 ticks rest hcallout =>
      -- the timeout that ends is the only one
      have hlen := h.callout
      rw [hcallout, List.length_cons] at hlen
      have hrest : rest = [] := by
        rw [← List.length_eq_zero_iff]
        split at hlen <;> omega
      have hfired : Paced P { t with
          callout := rest, log := t.log ++ [.fired], t_state := t.t_state &&& ~~~TIMEOUT } := by
        refine ⟨h.wf, ?_, ?_⟩
        · rw [← h.log, hcallout, hrest]
          simp
        · simp only [hrest, is, is_clear]
          rfl
      obtain ⟨t₁, hrun, h'⟩ := hfired.ttstart be fun hbe hready =>
        ha hbe _ rfl hready
      rw [hrun] at hs
      rwa [← Option.some.inj hs]
  | kltxintr =>
    have hdone : Paced P { t with tttcsr := t.tttcsr ||| DONE } := ⟨h.wf, h.log, h.callout⟩
    obtain ⟨t₁, hrun, h'⟩ := hdone.ttstart be fun hbe hready => ha hbe _ rfl hready
    rw [outStep, kltxintr, hrun] at hs
    rwa [← Option.some.inj hs]

/-- The device gets the characters of the queue in order, and each delay byte is waited for. -/
structure DelaysKept (t : Tty) : Prop where
  queue : t.cl.put .t_outq = t.cl.taken .t_outq ++ t.cl.pending .t_outq
  /-- The log is what should happen for the bytes taken from the queue, up to the end of the
  timeout that has been started last. -/
  log : t.log ++ t.callout.map (fun _ => .fired) = schedule (t.cl.taken .t_outq)

theorem Paced.delaysKept (h : Paced P t) : DelaysKept t := by
  obtain ⟨lay, free, hinv⟩ := h.wf
  exact ⟨by rw [hinv.pending_eq, hinv.history], h.log⟩

/-- Nothing has been taken out of the queues in the beginning. -/
theorem taken_cinit (cfree : ℕ) (c_next : ℕ → ℕ) (info : ℕ → Byte) :
    (TtySys.cinit cfree (bss c_next info) : TtySys TtyQ).taken = fun _ => [] := by
  have hloop : ∀ last n cp (s : TtySys TtyQ), (TtySys.cinitLoop last n cp s).taken = s.taken := by
    intro last n
    induction n with
    | zero => exact fun _ _ => rfl
    | succ n ih =>
      intro cp s
      rw [TtySys.cinitLoop]
      split
      · exact ih _ _
      · rfl
  exact hloop _ _ _ _

/-- Delay bytes are not sent, and nothing is sent during a delay, as long as the screen is not
given a character with a delay queued behind it. The UART needs no such condition. -/
theorem delaysKept_of_reachable {be : Backend} {cfree : ℕ} (hcfree : 0 < cfree) {c_next : ℕ → ℕ}
    {info : ℕ → Byte} {flags : Word}
    (h : Reachable (outStep be) (Unmixed be) { klopen cfree c_next info with t_flags := flags } t) :
    DelaysKept t := by
  have hinit : Paced (pool cfree) { klopen cfree c_next info with t_flags := flags } := by
    refine ⟨wf_klopen hcfree c_next info, ?_, ?_⟩
    · show [] = schedule ((TtySys.cinit cfree (bss c_next info) : TtySys TtyQ).taken .t_outq)
      rw [taken_cinit]
      rfl
    · show 0 = if ((ISOPEN ||| CARR_ON) &&& TIMEOUT != 0) = true then 1 else 0
      decide
  have hpaced := h.invariant (P := Paced (pool cfree)) hinit fun t a t' ht ha hs => ht.step ha hs
  exact hpaced.delaysKept

/-- A newline with the delay of a vt05. -/
def newline : List OutAct := [.ttyoutput 2 (ascii '\n'), .ttstart]

/-- Two letters without a delay. -/
def letters : List OutAct := [.ttyoutput 2 (ascii 'a'), .ttyoutput 2 (ascii 'b'), .ttstart]

/-- There is no delay byte in the queue. -/
def noDelay (t : Tty) (_ : OutAct) : Bool :=
  (t.cl.pending .t_outq).all fun c => decide (c.toNat ≤ 0o177)

/-- Without delays nothing is mixed. -/
theorem unmixed_of_noDelay {be : Backend} {a : OutAct} (h : noDelay t a = true) :
    Unmixed be t a := by
  rintro - t₁ - - ⟨c, cs, hcs, -, d, hd, hdelay⟩
  have hall := List.all_eq_true.mp h d (by rw [hcs]; exact List.mem_cons_of_mem c hd)
  exact absurd (of_decide_eq_true hall) (by omega)

/-- The newline on the UART, and the letters on the screen. -/
theorem delaysKept_newline :
    (∃ t, runSteps (outStep .uart) (newline ++ [.kltxintr, .ttrstrt])
        { opened with t_flags := 0o1000 } = some t ∧ DelaysKept t) ∧
      ∃ t, runSteps (outStep .bios) letters { opened with t_flags := 0 } = some t ∧
        DelaysKept t ∧ t.log = [.sent 0o141, .sent 0o142] := by
  constructor
  · obtain ⟨t, ht⟩ := Option.isSome_iff_exists.mp (show
      (runSteps (outStep .uart) (newline ++ [.kltxintr, .ttrstrt])
        { opened with t_flags := 0o1000 }).isSome = true
      from by decide +kernel)
    have hok : ∀ a ∈ newline ++ [.kltxintr, .ttrstrt], ∀ t, Unmixed .uart t a :=
      fun _ _ _ hbe => absurd hbe (by decide)
    exact ⟨t, ht, delaysKept_of_reachable (by decide) (Reachable.refl.of_runSteps_ok hok ht)⟩
  · obtain ⟨t, ht, hlog⟩ := (Option.any_eq_true _ _).mp (show
      (checkedSteps (outStep .bios) noDelay letters { opened with t_flags := 0 }).any
        (fun t => decide (t.log = [.sent 0o141, .sent 0o142])) = true
      from by decide +kernel)
    exact ⟨t, runSteps_of_checkedSteps ht, delaysKept_of_reachable (by decide)
      (Reachable.refl.of_checkedSteps (fun _ _ h => unmixed_of_noDelay h) ht),
      of_decide_eq_true hlog⟩

/-- The screen gets the delay byte of the newline. -/
theorem not_delaysKept_newline_bios : ∃ t,
    runSteps (outStep .bios) newline
      { opened with t_flags := 0o1000 } = some t ∧
      t.log = [.sent 0o12, .sent 0o206] ∧ ¬DelaysKept t := by
  obtain ⟨t, ht, hlog⟩ := (Option.any_eq_true _ _).mp (show
    (runSteps (outStep .bios) newline
      { opened with t_flags := 0o1000 }).any
      (fun t => decide (t.log = [.sent 0o12, .sent 0o206] ∧ t.callout = [] ∧
        t.cl.taken .t_outq = [0o12, 0o206])) = true
    from by decide +kernel)
  obtain ⟨hlog, hcallout, htaken⟩ := of_decide_eq_true hlog
  refine ⟨t, ht, hlog, fun h => ?_⟩
  have hschedule := h.log
  rw [hlog, hcallout, htaken] at hschedule
  exact absurd hschedule (by decide)

end UnixV6.Tty
