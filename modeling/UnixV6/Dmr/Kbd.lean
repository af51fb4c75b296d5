import UnixV6.Dmr.Tty

/-!
# The keyboard (`dmr/kbd.c`, with `klrint` of `dmr/kl.c`)

The keyboard sends one byte when a key goes down and another one when it comes up; some keys have a
prefix. `kbd_getc` makes a character of each byte, or none, and keeps in one word what it knows of
the modifiers; `klrint` gives the characters to the terminal. A table is what `kbd_init` has made of
it.
-/

namespace UnixV6

namespace Kbd

open Tty

def SHIFT : Word := 0x01
def CTL : Word := 0x02
def ALT : Word := 0x04
def CAPSLOCK : Word := 0x08
def NUMLOCK : Word := 0x10
def SCROLLLOCK : Word := 0x20
def E0ESC : Word := 0x40

def shiftcode (data : Byte) : Word :=
  if data = 0x1D then CTL
  else if data = 0x2A then SHIFT
  else if data = 0x36 then SHIFT
  else if data = 0x38 then ALT
  else if data = 0x9D then CTL
  else if data = 0xB8 then ALT
  else 0

def togglecode (data : Byte) : Word :=
  if data = 0x3A then CAPSLOCK
  else if data = 0x45 then NUMLOCK
  else if data = 0x46 then SCROLLLOCK
  else 0

/-- The special keys that are the same in the three maps. -/
def special (data : Byte) : Option (Byte) :=
  if data = 0xC8 then some 0xE2
  else if data = 0xD0 then some 0xE3
  else if data = 0xC9 then some 0xE6
  else if data = 0xD1 then some 0xE7
  else if data = 0xCB then some 0xE4
  else if data = 0xCD then some 0xE5
  else if data = 0x97 then some 0xE0
  else if data = 0xCF then some 0xE1
  else if data = 0xD2 then some 0xE8
  else if data = 0xD3 then some 0xE9
  else none

/-- A map of characters: `rows` from the first place on, the two keys of the keypad with a prefix,
and the special keys. -/
def keymap (rows : List (Byte)) (enter div : Byte) (data : Byte) : Byte :=
  if data = 0x9C then enter
  else if data = 0xB5 then div
  else (special data).getD (rows.getD data.toNat 0)

/-- `C(x)`. -/
def control (c : Char) : Byte := ascii c - ascii '@'

def normalmap : Byte → Byte :=
  keymap
    ([0, 0x1B] ++ "1234567890-=".toList.map ascii ++ [8, 9] ++
      "qwertyuiop[]".toList.map ascii ++ [10, 0] ++ "asdfghjkl;".toList.map ascii ++ [0x27] ++
      [ascii (Char.ofNat 0x60), 0, 0x5C] ++ "zxcvbnm,./".toList.map ascii ++ [0, ascii '*'] ++
      [0, ascii ' '] ++ List.replicate 13 0 ++ "789-456+1230.".toList.map ascii)
    10 (ascii '/')

def shiftmap : Byte → Byte :=
  keymap
    ([0, 0x1B] ++ "!@#$%^&*()_+".toList.map ascii ++ [8, 9] ++
      "QWERTYUIOP".toList.map ascii ++ [0x7B, 0x7D, 10, 0] ++ "ASDFGHJKL:".toList.map ascii ++
      [0x22] ++ [ascii '~', 0, ascii '|'] ++ "ZXCVBNM<>?".toList.map ascii ++ [0, ascii '*'] ++
      [0, ascii ' '] ++ List.replicate 13 0 ++ "789-456+1230.".toList.map ascii)
    10 (ascii '/')

def ctlmap : Byte → Byte :=
  keymap
    (List.replicate 16 0 ++ "QWERTYUIOP".toList.map control ++ [0, 0, 13, 0] ++
      "ASDFGHJKL".toList.map control ++ [0, 0, 0, 0] ++ [0x5C - ascii '@'] ++
      "ZXCVBNM".toList.map control ++ [0, 0, control '/'])
    13 (control '/')

/-- `charcode[shift & (CTL | SHIFT)]`. -/
def charcode (shift : Word) : Byte → Byte :=
  if shift &&& (CTL ||| SHIFT) = 0 then normalmap
  else if shift &&& (CTL ||| SHIFT) = 1 then shiftmap
  else ctlmap

/-- What `CAPSLOCK` does with a character. -/
def caps (c : Word) : Word :=
  if 0x61 ≤ c ∧ c ≤ 0x7A then c + 0x41 - 0x61
  else if 0x41 ≤ c ∧ c ≤ 0x5A then c + 0x61 - 0x41
  else c

/-- `kbd_getc`, with `shift`; there is a byte in the data port, or none. -/
def kbd_getc (shift : Word) : Option (Byte) → Word × Word
  | none => (-1, shift)
  | some data =>
    if data = 0xE0 then (0, shift ||| E0ESC)
    else if data &&& 0x80 ≠ 0 then
      -- key released
      let data := if shift &&& E0ESC ≠ 0 then data else data &&& 0x7F
      (0, shift &&& ~~~(shiftcode data ||| E0ESC))
    else
      let (data, shift) :=
        if shift &&& E0ESC ≠ 0 then (data ||| 0x80, shift &&& ~~~E0ESC) else (data, shift)
      let shift := (shift ||| shiftcode data) ^^^ togglecode data
      let c := (charcode shift data).setWidth 16
      (if shift &&& CAPSLOCK ≠ 0 then caps c else c, shift)

/-- `klrint`, on `shift` and the terminal. -/
def klrint (be : Backend) (fuel : ℕ) (data : Option Byte) (s : Word × Tty) : Option (Word × Tty) :=
  let (c, shift) := kbd_getc s.1 data
  if s.2.is ISOPEN then
    if 0 < c.toInt then (s.2.ttyinput be fuel (c.setWidth 8)).map fun t => (shift, t)
    else some (shift, s.2)
  else some (shift, s.2)

/-- What happens to the terminal: an interrupt of the keyboard, with the byte in the port, or
anything else the kernel does with it. -/
inductive Act
  | klrint (data : Option Byte)
  | kernel (f : Tty → Option Tty)

def act (be : Backend) (fuel : ℕ) (s : Word × Tty) : Act → Option (Word × Tty)
  | .klrint data => klrint be fuel data s
  | .kernel f => (f s.2).map fun t => (s.1, t)

/-! ## What a keyboard is -/

/-- A key: its code, and whether it has the prefix. -/
structure Key where
  ext : Bool
  code : Byte
  plain : code &&& 0x80 = 0
  /-- The byte of its release is not the prefix. -/
  noPrefix : code ||| 0x80 ≠ 0xE0

/-- The place of a key in the tables. -/
def Key.index (k : Key) : Byte := if k.ext then k.code ||| 0x80 else k.code

/-- What happens at the keyboard; `f` is what the kernel does with the terminal before the code of
the key comes. -/
inductive KeyEvent
  | press (k : Key) (f : Tty → Option Tty)
  | release (k : Key) (f : Tty → Option Tty)
  /-- An interrupt without a byte. -/
  | spurious (f : Tty → Option Tty)

namespace KeyEvent

/-- The prefix of a key that has one. -/
def lead (k : Key) : List Act := if k.ext then [.klrint (some 0xE0)] else []

/-- An event as the kernel sees it. -/
def acts : KeyEvent → List Act
  | press k f => lead k ++ [.kernel f, .klrint (some k.code)]
  | release k f => lead k ++ [.kernel f, .klrint (some (k.code ||| 0x80))]
  | spurious f => [.kernel f, .klrint none]

/-- A modifier is down if the last thing that has happened to one of its keys is that it was
pressed. The last event comes first. -/
def held (m : Word) : List KeyEvent → Bool
  | [] => false
  | press k _ :: h => shiftcode k.index == m || held m h
  | release k _ :: h => shiftcode k.index != m && held m h
  | spurious _ :: h => held m h

/-- A lock is on after every second press of its key. -/
def locked (m : Word) : List KeyEvent → Bool
  | [] => false
  | press k _ :: h => (togglecode k.index == m) ^^ locked m h
  | release _ _ :: h => locked m h
  | spurious _ :: h => locked m h

/-- The character of a key. -/
def char (h : List KeyEvent) (k : Key) : Word :=
  let c := (if held CTL h then ctlmap k.index else if held SHIFT h then shiftmap k.index
    else normalmap k.index).setWidth 16
  if locked CAPSLOCK h then caps c else c

/-- The kernel does `f`; then an open terminal has the character as input, if the key has one. -/
def strike (be : Backend) (fuel : ℕ) (f : Tty → Option Tty) (c : Word) (t : Tty) : Option Tty := do
  let t ← f t
  if t.is ISOPEN ∧ c ≠ 0 then t.ttyinput be fuel (c.setWidth 8) else some t

/-- What an event types: a key that is pressed types its character, with the modifiers of that
moment. -/
def typeEvent (be : Backend) (fuel : ℕ) (h : List KeyEvent) : KeyEvent → Tty → Option Tty
  | press k f, t => strike be fuel f (char (press k f :: h) k) t
  | release _ f, t => f t
  | spurious f, t => f t

def typeEvents (be : Backend) (fuel : ℕ) : List KeyEvent → List KeyEvent → Tty → Option Tty
  | _, [], t => some t
  | h, e :: es, t => do typeEvents be fuel (e :: h) es (← typeEvent be fuel h e t)

/-- The word for the modifiers. -/
def word (sh ct al ca nu sc : Bool) : Word :=
  (if sh then SHIFT else 0) ||| (if ct then CTL else 0) ||| (if al then ALT else 0) |||
    (if ca then CAPSLOCK else 0) ||| (if nu then NUMLOCK else 0) ||| (if sc then SCROLLLOCK else 0)

/-- `shift` after the events `h`. -/
def shift (h : List KeyEvent) : Word :=
  word (held SHIFT h) (held CTL h) (held ALT h) (locked CAPSLOCK h) (locked NUMLOCK h)
    (locked SCROLLLOCK h)

/-! ### The bits of the word -/

/-- A key is one of the shift keys, or none. -/
theorem shiftcode_cases (d : Byte) :
    shiftcode d = 0 ∨ shiftcode d = SHIFT ∨ shiftcode d = CTL ∨ shiftcode d = ALT := by
  unfold shiftcode
  split_ifs <;> simp

/-- A key is one of the lock keys, or none. -/
theorem togglecode_cases (d : Byte) :
    togglecode d = 0 ∨ togglecode d = CAPSLOCK ∨ togglecode d = NUMLOCK ∨
      togglecode d = SCROLLLOCK := by
  unfold togglecode
  split_ifs <;> simp

theorem word_plain (sh ct al ca nu sc : Bool) : word sh ct al ca nu sc &&& E0ESC = 0 := by
  revert sh ct al ca nu sc
  decide

/-- A word with the prefix. -/
theorem word_escaped (sh ct al ca nu sc : Bool) :
    (word sh ct al ca nu sc ||| E0ESC) &&& E0ESC ≠ 0 := by
  revert sh ct al ca nu sc
  decide

/-- The prefix is taken out of the word. -/
theorem word_unescape (sh ct al ca nu sc : Bool) :
    (word sh ct al ca nu sc ||| E0ESC) &&& ~~~E0ESC = word sh ct al ca nu sc := by
  revert sh ct al ca nu sc
  decide

/-- Caps Lock in the word. -/
theorem word_caps (sh ct al ca nu sc : Bool) :
    word sh ct al ca nu sc &&& CAPSLOCK ≠ 0 ↔ ca = true := by
  revert sh ct al ca nu sc
  decide

/-- A shift key that is pressed. -/
theorem word_press (d : Byte) (sh ct al ca nu sc : Bool) :
    word sh ct al ca nu sc ||| shiftcode d =
      word (shiftcode d == SHIFT || sh) (shiftcode d == CTL || ct) (shiftcode d == ALT || al)
        ca nu sc := by
  obtain h | h | h | h := shiftcode_cases d
  all_goals
    rw [h]
    revert sh ct al ca nu sc
    decide

/-- A lock key that is pressed. -/
theorem word_toggle (d : Byte) (sh ct al ca nu sc : Bool) :
    word sh ct al ca nu sc ^^^ togglecode d =
      word sh ct al ((togglecode d == CAPSLOCK) ^^ ca) ((togglecode d == NUMLOCK) ^^ nu)
        ((togglecode d == SCROLLLOCK) ^^ sc) := by
  obtain h | h | h | h := togglecode_cases d
  all_goals
    rw [h]
    revert sh ct al ca nu sc
    decide

/-- A shift key that is released. -/
theorem word_release (d : Byte) (sh ct al ca nu sc : Bool) :
    word sh ct al ca nu sc &&& ~~~(shiftcode d ||| E0ESC) =
      word (shiftcode d != SHIFT && sh) (shiftcode d != CTL && ct) (shiftcode d != ALT && al)
        ca nu sc := by
  obtain h | h | h | h := shiftcode_cases d
  all_goals
    rw [h]
    revert sh ct al ca nu sc
    decide

/-- The map that the word selects. -/
theorem charcode_word (sh ct al ca nu sc : Bool) :
    charcode (word sh ct al ca nu sc) =
      if ct then ctlmap else if sh then shiftmap else normalmap := by
  have hw : word sh ct al ca nu sc &&& (CTL ||| SHIFT) =
      (if ct then CTL else 0) ||| (if sh then SHIFT else 0) := by
    revert sh ct al ca nu sc
    decide
  unfold charcode
  rw [hw]
  cases ct <;> cases sh <;> rfl

/-- The word after a key has been pressed. -/
theorem shift_press (h : List KeyEvent) (k : Key) (f : Tty → Option Tty) :
    (shift h ||| shiftcode k.index) ^^^ togglecode k.index = shift (press k f :: h) := by
  unfold shift
  rw [word_press, word_toggle]
  rfl

/-- The word after a key has been released. -/
theorem shift_release (h : List KeyEvent) (k : Key) (f : Tty → Option Tty) :
    shift h &&& ~~~(shiftcode k.index ||| E0ESC) = shift (release k f :: h) :=
  word_release _ _ _ _ _ _ _

/-- The prefix is forgotten with the modifier. -/
theorem release_escaped (w s : Word) :
    (w ||| E0ESC) &&& ~~~(s ||| E0ESC) = w &&& ~~~(s ||| E0ESC) := by
  ext i hi
  simp only [BitVec.getElem_and, BitVec.getElem_or, BitVec.getElem_not]
  cases w[i] <;> cases s[i] <;> cases E0ESC[i] <;> rfl

/-! ### One event -/

/-- A character is positive if it is not `NO`. -/
theorem zero_lt_char (h : List KeyEvent) (k : Key) : 0 < (char h k).toInt ↔ char h k ≠ 0 := by
  have plain : ∀ b : Byte, 0 < (b.setWidth 16).toInt ↔ b.setWidth 16 ≠ 0 := by decide
  have capital : ∀ b : Byte, 0 < (caps (b.setWidth 16)).toInt ↔ caps (b.setWidth 16) ≠ 0 := by
    decide
  unfold char
  cases locked CAPSLOCK h
  · exact plain _
  · exact capital _

/-- `shift` when the code of a key comes. -/
def atCode (h : List KeyEvent) (k : Key) : Word := if k.ext then shift h ||| E0ESC else shift h

/-- A code is taken with its prefix, which is then forgotten. -/
theorem take_press (h : List KeyEvent) (k : Key) :
    (if atCode h k &&& E0ESC ≠ 0 then (k.code ||| 0x80, atCode h k &&& ~~~E0ESC)
      else (k.code, atCode h k)) = (k.index, shift h) := by
  unfold atCode Key.index
  cases k.ext
  · exact if_neg (not_not.2 (word_plain _ _ _ _ _ _))
  · exact (if_pos (word_escaped _ _ _ _ _ _)).trans
      (congrArg (Prod.mk _) (word_unescape _ _ _ _ _ _))

/-- The bit of a release stands for the prefix, and is taken away if there was none. -/
theorem take_release (h : List KeyEvent) (k : Key) :
    (if atCode h k &&& E0ESC ≠ 0 then k.code ||| 0x80 else (k.code ||| 0x80) &&& 0x7F) =
      k.index := by
  have hplain : ∀ c : Byte, c &&& 0x80 = 0 → (c ||| 0x80) &&& 0x7F = c := by decide
  unfold atCode Key.index
  cases k.ext
  · exact (if_neg (not_not.2 (word_plain _ _ _ _ _ _))).trans (hplain _ k.plain)
  · exact if_pos (word_escaped _ _ _ _ _ _)

/-- A key that is pressed gives its character. -/
theorem kbd_getc_press (h : List KeyEvent) (k : Key) (f : Tty → Option Tty) :
    kbd_getc (atCode h k) (some k.code) = (char (press k f :: h) k, shift (press k f :: h)) := by
  have hne : k.code ≠ 0xE0 := by
    intro hc
    have hplain := k.plain
    rw [hc] at hplain
    exact absurd hplain (by decide)
  unfold kbd_getc
  simp only
  rw [if_neg hne, if_neg (not_not.2 k.plain), take_press]
  -- the modifier of the key counts for its own character
  simp only
  rw [shift_press h k f, char]
  simp only [shift, charcode_word, word_caps]
  congr 1
  split_ifs <;> rfl

/-- A key that is released gives no character. -/
theorem kbd_getc_release (h : List KeyEvent) (k : Key) (f : Tty → Option Tty) :
    kbd_getc (atCode h k) (some (k.code ||| 0x80)) = (0, shift (release k f :: h)) := by
  have hbit : ∀ c : Byte, (c ||| 0x80) &&& 0x80 ≠ 0 := by decide
  unfold kbd_getc
  simp only
  rw [if_neg k.noPrefix, if_pos (hbit _), take_release, ← shift_release]
  -- the prefix and the modifier go together
  congr 1
  unfold atCode
  split
  · exact release_escaped _ _
  · rfl

variable (be : Backend) (fuel : ℕ)

/-- The prefix does nothing to the terminal. -/
theorem act_e0 (s : Word) (t : Tty) :
    act be fuel (s, t) (.klrint (some 0xE0)) = some (s ||| E0ESC, t) := by
  change klrint be fuel (some 0xE0) (s, t) = _
  unfold klrint
  -- no character, so it is the same whether the terminal is open
  cases (s, t).2.is ISOPEN <;> rfl

/-- The prefix of a key, if it has one. -/
theorem act_lead (h : List KeyEvent) (k : Key) (t : Tty) (rest : List Act) :
    (lead k ++ rest).foldlM (act be fuel) (shift h, t) =
      rest.foldlM (act be fuel) (atCode h k, t) := by
  unfold lead atCode
  cases k.ext
  · rfl
  · rw [if_pos rfl, if_pos rfl, List.singleton_append, List.foldlM_cons, act_e0]
    rfl

/-- A byte that makes no character. -/
theorem klrint_zero {s s' : Word} {data : Option Byte} {c : Word} (hc : ¬0 < c.toInt)
    (hk : kbd_getc s data = (c, s')) (t : Tty) : klrint be fuel data (s, t) = some (s', t) := by
  unfold klrint
  simp only [hk, if_neg hc, ite_self]

/-- One event: the terminal has what it types, and the modifiers are as they now are. -/
theorem acts_event (h : List KeyEvent) (e : KeyEvent) (t : Tty) :
    e.acts.foldlM (act be fuel) (shift h, t) =
      (typeEvent be fuel h e t).map fun t => (shift (e :: h), t) := by
  cases e with
  | press k f =>
    rw [acts, act_lead]
    simp only [List.foldlM_cons, List.foldlM_nil, act, typeEvent, strike]
    cases f t with
    | none => rfl
    | some t =>
      simp only [Option.map_some, Option.bind_eq_bind, Option.bind_some, klrint,
        kbd_getc_press h k f, zero_lt_char]
      -- the kernel may have closed the terminal, and the key may have no character
      by_cases ho : t.is ISOPEN = true
      · by_cases hc : char (press k f :: h) k = 0
        · simp [hc, ho]
        · rw [if_pos ho, if_pos hc, if_pos ⟨ho, hc⟩]
          exact Option.bind_fun_some _
      · simp [ho]
  | release k f =>
    rw [acts, act_lead]
    simp only [List.foldlM_cons, List.foldlM_nil, act, typeEvent]
    cases f t with
    | none => rfl
    | some t =>
      simp only [Option.map_some, Option.bind_eq_bind, Option.bind_some,
        klrint_zero be fuel (by decide) (kbd_getc_release h k f)]
      rfl
  | spurious f =>
    simp only [acts, List.foldlM_cons, List.foldlM_nil, act, typeEvent]
    cases f t with
    | none => rfl
    | some t =>
      simp only [Option.map_some, Option.bind_eq_bind, Option.bind_some,
        klrint_zero be fuel (by decide) (rfl : kbd_getc (shift h) none = (-1, shift h))]
      rfl

/-! ### Whole runs -/

/-- The interrupts of many events. -/
theorem acts_events (h es : List KeyEvent) (t : Tty) :
    (es.flatMap acts).foldlM (act be fuel) (shift h, t) =
      (typeEvents be fuel h es t).map fun t => (shift (es.reverse ++ h), t) := by
  induction es generalizing h t with
  | nil => rfl
  | cons e es ih =>
    rw [List.flatMap_cons, List.foldlM_append, acts_event, typeEvents]
    cases typeEvent be fuel h e t with
    | none => rfl
    | some t =>
      have hrev : (e :: es).reverse ++ h = es.reverse ++ e :: h := by
        rw [List.reverse_cons, List.append_assoc]
        rfl
      rw [hrev]
      exact ih (e :: h) t

/-- Whatever happens at the keyboard from the start, and whatever the kernel does with the terminal
meanwhile, the terminal has as input the characters of the keys that are pressed while it is open,
each with the modifiers of that moment. -/
theorem klrint_types (es : List KeyEvent) (t : Tty) :
    (es.flatMap acts).foldlM (act be fuel) (0, t) =
      (typeEvents be fuel [] es t).map fun t => (shift es.reverse, t) := by
  have h := acts_events be fuel [] es t
  rw [List.append_nil] at h
  exact h

end KeyEvent

end Kbd

end UnixV6
