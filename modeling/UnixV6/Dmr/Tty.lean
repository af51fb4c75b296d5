import UnixV6.Dmr.Clist

/-!
# The terminal (`dmr/tty.c`)

A terminal has three queues of characters: `t_rawq` as they were typed, `t_canq` with erase and kill
done, and `t_outq` for the device. They take their blocks from the pool that all terminals share.

A loop that takes characters from a queue until it is empty has as many rounds as its argument says,
one more than there are characters. The recursion of `ttyoutput` has no such bound, so its argument
is given by the caller, and the result is `none` if it is too small.
-/

open Function

namespace UnixV6

namespace Tty

/-- The queues of the terminal, and the others that share the pool. -/
inductive TtyQ
  | t_rawq
  | t_canq
  | t_outq
  | other (k : ℕ)
  deriving DecidableEq, Repr

/-! ## Constants -/

def CEOT : Byte := 0o4
def CQUIT : Byte := 0o33
def CINTR : Byte := 0o3

def TTYHOG : ℤ := 256

def XTABS : Word := 0o2
def LCASE : Word := 0o4
def ECHO : Word := 0o10
def CRMOD : Word := 0o20
def RAW : Word := 0o40
def VTDELAY : Word := 0o40000

def DONE : Word := 0o200

def TIMEOUT : Byte := 0o1
def ISOPEN : Byte := 0o4
def SSTART : Byte := 0o10
def CARR_ON : Byte := 0o20
def ASLEEP : Byte := 0o100

/-- Max size of typewriter line. -/
def CANBSIZ : ℕ := 256

/-- The byte of an ASCII character. -/
def ascii (ch : Char) : Byte := BitVec.ofNat 8 ch.toNat

/-- `maptab`: what replaces a character that is typed after a backslash, if it is not zero. -/
def maptab (c : ℤ) : Byte :=
  [0, 0, 0, 0, 0o4, 0, 0, 0,
    0, 0, 0, 0, 0, 0, 0, 0,
    0, 0, 0, 0, 0, 0, 0, 0,
    0, 0, 0, 0, 0, 0, 0, 0,
    0, ascii '|', 0, ascii '#', 0, 0, 0, 0x60,
    0x7b, 0x7d, 0, 0, 0, 0, 0, 0,
    0, 0, 0, 0, 0, 0, 0, 0,
    0, 0, 0, 0, 0, 0, 0, 0,
    ascii '@', 0, 0, 0, 0, 0, 0, 0,
    0, 0, 0, 0, 0, 0, 0, 0,
    0, 0, 0, 0, 0, 0, 0, 0,
    0, 0, 0, 0, 0, 0, ascii '~', 0,
    0, ascii 'A', ascii 'B', ascii 'C', ascii 'D', ascii 'E', ascii 'F', ascii 'G',
    ascii 'H', ascii 'I', ascii 'J', ascii 'K', ascii 'L', ascii 'M', ascii 'N', ascii 'O',
    ascii 'P', ascii 'Q', ascii 'R', ascii 'S', ascii 'T', ascii 'U', ascii 'V', ascii 'W',
    ascii 'X', ascii 'Y', ascii 'Z', 0, 0, 0, 0, 0].getD c.toNat 0

/-- `partab`: the parity in bit 0200 and the class of the character below it. -/
def partab (c : Byte) : Byte :=
  [0o001, 0o201, 0o201, 0o001, 0o201, 0o001, 0o001, 0o201,
    0o202, 0o004, 0o003, 0o205, 0o005, 0o206, 0o201, 0o001,
    0o201, 0o001, 0o001, 0o201, 0o001, 0o201, 0o201, 0o001,
    0o001, 0o201, 0o201, 0o001, 0o201, 0o001, 0o001, 0o201,
    0o200, 0o000, 0o000, 0o200, 0o000, 0o200, 0o200, 0o000,
    0o000, 0o200, 0o200, 0o000, 0o200, 0o000, 0o000, 0o200,
    0o000, 0o200, 0o200, 0o000, 0o200, 0o000, 0o000, 0o200,
    0o200, 0o000, 0o000, 0o200, 0o000, 0o200, 0o200, 0o000,
    0o200, 0o000, 0o000, 0o200, 0o000, 0o200, 0o200, 0o000,
    0o000, 0o200, 0o200, 0o000, 0o200, 0o000, 0o000, 0o200,
    0o000, 0o200, 0o200, 0o000, 0o200, 0o000, 0o000, 0o200,
    0o200, 0o000, 0o000, 0o200, 0o000, 0o200, 0o200, 0o000,
    0o000, 0o200, 0o200, 0o000, 0o200, 0o000, 0o000, 0o200,
    0o200, 0o000, 0o000, 0o200, 0o000, 0o200, 0o200, 0o000,
    0o200, 0o000, 0o000, 0o200, 0o000, 0o200, 0o200, 0o000,
    0o000, 0o200, 0o200, 0o000, 0o200, 0o000, 0o000, 0o201].getD c.toNat 0
/-! ## The state -/

/-- What the terminal gets done: a character goes to the device, or nothing does for a time. -/
inductive OutEvent
  | sent (c : Byte)
  /-- `timeout` is called for so many ticks. -/
  | started (ticks : Byte)
  /-- The timeout is over. -/
  | fired
  deriving DecidableEq, Repr

/-- How the kernel is configured to reach the terminal: `KL_BACKEND_UART`, or the screen. -/
inductive Backend
  | uart
  | bios
  deriving DecidableEq, Repr

end Tty

/-- `struct tty`, with the registers at `t_addr`, and what else its routines use. -/
structure Tty where
  /-- The queues and the pool of blocks. -/
  cl : Tty.TtySys Tty.TtyQ
  t_flags : Word
  /-- The number of delimiters in the raw queue. -/
  t_delct : Byte
  /-- The column, a signed `char` as the next two are. -/
  t_col : Byte
  t_erase : Byte
  t_kill : Byte
  t_state : Byte
  tttcsr : Word
  tttbuf : Word
  canonb : ℕ → Byte
  /-- The calls of `ttrstrt` that `timeout` has been asked for. -/
  callout : List Byte
  log : List Tty.OutEvent

namespace Tty

/-- The terminal as `cinit` and `klopen` leave it. -/
def klopen (cfree : ℕ) (c_next : ℕ → ℕ) (info : ℕ → Byte) : Tty where
  cl := TtySys.cinit cfree (bss c_next info)
  t_flags := XTABS ||| ECHO ||| CRMOD
  t_delct := 0
  t_col := 0
  t_erase := ascii '#'
  t_kill := ascii '@'
  t_state := ISOPEN ||| CARR_ON
  tttcsr := -1
  tttbuf := -1
  canonb := fun _ => 0
  callout := []
  log := []

/-- A mode of `t_flags`. -/
def mode (t : Tty) (flag : Word) : Bool := t.t_flags &&& flag != 0

/-- A bit of `t_state`. -/
def is (t : Tty) (bit : Byte) : Bool := t.t_state &&& bit != 0

def getc (t : Tty) (i : TtyQ) : ℤ × Tty :=
  let r := t.cl.getc i
  (r.1, { t with cl := r.2 })

def putc (t : Tty) (c : Byte) (i : TtyQ) : ℤ × Tty :=
  let r := t.cl.putc c i
  (r.1, { t with cl := r.2 })

/-- `c_cc` of a queue. -/
def count (t : Tty) (i : TtyQ) : ℤ := (t.cl.q i).c_cc

/-- The rounds that it takes to empty a queue. -/
def rounds (t : Tty) (i : TtyQ) : ℕ := (t.count i).toNat + 1

/-! ## Output -/

/-- The escapes of terminals that have upper case only: what to send after a backslash. -/
def escapes : List (Byte × Byte) :=
  [(ascii '(', 0x7b), (ascii ')', 0x7d), (ascii '!', ascii '|'), (ascii '^', ascii '~'),
    (0x27, 0x60)]

/-- The escape of a character. -/
def escape (c : Byte) : Option Byte := (escapes.find? fun p => p.2 == c).map Prod.fst

/-- The character to send for `c` in mode `LCASE`. -/
def upper (c : Byte) : Byte :=
  let c := (escape c).getD c
  if ascii 'a' ≤ c ∧ c ≤ ascii 'z' then c + (ascii 'A' - ascii 'a') else c

/-- The new column and the delay in ticks, by the class `ctype` of the character. -/
def delay (t_flags : Word) (ctype : Byte) (col : Byte) : Byte × ℤ :=
  match ctype.toNat with
  -- ordinary
  | 0 => (col + 1, 0)
  -- backspace
  | 2 => (if col ≠ 0 then col - 1 else col, 0)
  -- newline
  | 3 =>
    let ctype := t_flags >>> 8 &&& 0o3
    (0, if ctype = 1 then (if col ≠ 0 then max (col.toInt / 16 + 3) 6 else 0)
      else if ctype = 2 then 6 else 0)
  -- tab
  | 4 =>
    let ctype := t_flags >>> 10 &&& 0o3
    let c := 1 - (col ||| ~~~0o7).toInt
    ((col ||| 0o7) + 1, if ctype = 1 then (if c < 5 then 0 else c) else 0)
  -- vertical motion
  | 5 => (col, if t_flags &&& VTDELAY ≠ 0 then 0o177 else 0)
  -- carriage return
  | 6 =>
    let ctype := t_flags >>> 12 &&& 0o3
    (0, if ctype = 1 then 5 else if ctype = 2 then 10 else 0)
  -- non-printing
  | _ => (col, 0)

/-- The end of `ttyoutput`: the character goes into the queue, and a delay after it. -/
def send (c : Byte) (t : Tty) : Tty :=
  let r := t.putc c .t_outq
  if r.1 ≠ 0 then r.2
  else
    let d := delay t.t_flags (partab c &&& 0o77) t.t_col
    let t := { r.2 with t_col := d.1 }
    if d.2 ≠ 0 then (t.putc (BitVec.ofInt 8 d.2 ||| 0o200) .t_outq).2 else t

mutual

/-- Put a character on the output queue, adding delays, expanding tabs, and handling the CR/NL
bit. -/
def ttyoutput : ℕ → Byte → Tty → Option Tty
  | 0, _, _ => none
  | fuel + 1, ac, t =>
    let c := ac &&& 0o177
    -- EOT is ignored in normal mode to avoid hanging up certain terminals
    if c = CEOT ∧ !t.mode RAW then some t
    else if c = ascii '\t' ∧ t.mode XTABS then tabLoop fuel t
    else do
      let t ← (if t.mode LCASE ∧ (escape c).isSome then ttyoutput fuel (ascii '\\') t else some t)
      let c := if t.mode LCASE then upper c else c
      let t ← (if c = ascii '\n' ∧ t.mode CRMOD then ttyoutput fuel (ascii '\r') t else some t)
      some (t.send c)

/-- Blanks up to the next tab stop. -/
def tabLoop : ℕ → Tty → Option Tty
  | 0, _ => none
  | fuel + 1, t => do
    let t ← ttyoutput fuel (ascii ' ') t
    if t.t_col &&& 0o7 ≠ 0 then tabLoop fuel t else some t

end

/-- `bios_putc` of `c` and of all that is queued. -/
def drain : ℕ → ℤ → Tty → Option Tty
  | 0, _, _ => none
  | n + 1, c, t =>
    let t : Tty := { t with log := t.log ++ [.sent (BitVec.ofInt 8 c)] }
    let r := t.getc .t_outq
    if 0 ≤ r.1 then drain n r.1 r.2 else some r.2

/-- Start output on the typewriter. -/
def ttstart (be : Backend) (t : Tty) : Option Tty :=
  if t.is SSTART then some t
  else if t.tttcsr &&& DONE = 0 ∨ t.is TIMEOUT then some t
  else
    let n := t.rounds .t_outq
    let r := t.getc .t_outq
    let c := r.1
    let t := r.2
    if 0 ≤ c then
      if c ≤ 0o177 then
        match be with
        | .uart =>
          let b := BitVec.ofInt 8 c
          some { t with
            tttbuf := (b ||| partab b &&& 0o200).setWidth 16
            tttcsr := t.tttcsr &&& ~~~DONE
            log := t.log ++ [OutEvent.sent b] }
        | .bios => drain n c t
      else
        let ticks := BitVec.ofInt 8 c &&& 0o177
        some { t with
          callout := t.callout ++ [ticks]
          log := t.log ++ [OutEvent.started ticks]
          t_state := t.t_state ||| TIMEOUT }
    else some t

/-- Restart typewriter output following a delay timeout. The clock calls it, once for each entry. -/
def ttrstrt (be : Backend) (t : Tty) : Option Tty :=
  match t.callout with
  | [] => none
  | _ :: rest =>
    ttstart be { t with
      callout := rest
      log := t.log ++ [OutEvent.fired]
      t_state := t.t_state &&& ~~~TIMEOUT }

/-- The transmitter is ready for the next character. `klxint` also wakes up whoever waits for the
output queue to drain. -/
def kltxintr (be : Backend) (t : Tty) : Option Tty :=
  ttstart be { t with tttcsr := t.tttcsr ||| DONE }

/-! ## Input -/

/-- Throw away what is in a queue. -/
def flushq (i : TtyQ) : ℕ → Tty → Option Tty
  | 0, _ => none
  | n + 1, t =>
    let r := t.getc i
    if 0 ≤ r.1 then flushq i n r.2 else some r.2

/-- Flush all TTY queues, and wake up whoever waits for them. -/
def flushtty (t : Tty) : Option Tty := do
  let t ← flushq .t_canq (t.rounds .t_canq) t
  let t ← flushq .t_outq (t.rounds .t_outq) t
  let t ← flushq .t_rawq (t.rounds .t_rawq) t
  some { t with t_delct := 0 }

/-- `wflushtty` when the output has drained; it may have slept for that before. -/
def wflushtty (slept : Bool) (t : Tty) : Option Tty :=
  if t.count .t_outq ≠ 0 then none
  else flushtty (if slept then { t with t_state := t.t_state ||| ASLEEP } else t)

/-- What the loop of `canon` does with a character other than the delimiter when the next free
place of the buffer is `bp`: where it stores what. -/
def edit (t : Tty) (bp : ℕ) (c : ℤ) : ℕ × Option ℤ :=
  if t.mode RAW then (bp, some c)
  else if t.canonb (bp - 1) ≠ ascii '\\' then
    if c = t.t_erase.toInt then (if 2 < bp then bp - 1 else bp, none)
    else if c = t.t_kill.toInt then (2, none)
    else if c = CEOT.toNat then (bp, none)
    else (bp, some c)
  else if maptab c ≠ 0 ∧ ((maptab c).toInt = c ∨ t.mode LCASE) then
    (bp - 1, some (if t.canonb (bp - 2) ≠ ascii '\\' then (maptab c).toInt else c))
  else (bp, some c)

/-- What ends the loop of `canon`. -/
inductive CanonEnd
  | empty
  | delimiter
  | full
  deriving DecidableEq, Repr

/-- The loop of `canon`, with the place where the line ends in the buffer. -/
def canonLoop : ℕ → ℕ → Tty → Option (CanonEnd × ℕ × Tty)
  | 0, _, _ => none
  | n + 1, bp, t =>
    let r := t.getc .t_rawq
    let c := r.1
    let t := r.2
    if c < 0 then some (.empty, bp, t)
    else if c = 0o377 then some (.delimiter, bp, { t with t_delct := t.t_delct - 1 })
    else
      match t.edit bp c with
      | (bp, none) => canonLoop n bp t
      | (bp, some c) =>
        let t := { t with canonb := update t.canonb bp (BitVec.ofInt 8 c) }
        if CANBSIZ ≤ bp + 1 then some (.full, bp + 1, t) else canonLoop n (bp + 1) t

/-- The line in the buffer goes to the canonical queue. -/
def copyLine (bp1 : ℕ) (t : Tty) : Tty :=
  (List.range' 2 (bp1 - 2)).foldl (fun t bp => (t.putc (t.canonb bp) .t_canq).2) t

/-- Transfer raw input list to canonical list, doing erase-kill processing and handling escapes.
It is `none` while it waits for a line. -/
def canon (t : Tty) : Option (ℕ × Tty) :=
  if t.t_delct = 0 then if t.is CARR_ON then none else some (0, t)
  else (canonLoop (t.rounds .t_rawq) 2 t).map fun (_, bp1, t) => (1, copyLine bp1 t)

/-- The end of `ttyinput` but for the echo: the character goes into the raw queue, and a delimiter
after the end of a line. Then the readers are woken up. -/
def enter (c : Byte) (t : Tty) : Tty :=
  let t := (t.putc c .t_rawq).2
  if t.mode RAW ∨ c = ascii '\n' ∨ c = CEOT then
    let r := t.putc 0o377 .t_rawq
    if r.1 = 0 then { r.2 with t_delct := r.2.t_delct + 1 } else r.2
  else t

/-- The character that the device has read. -/
def typed (ac : Byte) (t : Tty) : Byte :=
  let c := ac &&& 0o177
  if c = ascii '\r' ∧ t.mode CRMOD then ascii '\n' else c

/-- What goes into the raw queue for a character that is typed in mode `LCASE`. -/
def lower (c : Byte) (t : Tty) : Byte :=
  if t.mode LCASE ∧ ascii 'A' ≤ c ∧ c ≤ ascii 'Z' then c + (ascii 'a' - ascii 'A') else c

/-- Place a character on raw TTY input queue, putting in delimiters. Also echo if required. -/
def ttyinput (be : Backend) (fuel : ℕ) (ac : Byte) (t : Tty) : Option Tty :=
  let c := t.typed ac
  -- the signal to the processes of the terminal is not part of its state
  if !t.mode RAW ∧ (c = CQUIT ∨ c = CINTR) then flushtty t
  else if TTYHOG ≤ t.count .t_rawq then flushtty t
  else
    let c := t.lower c
    let t := t.enter c
    if t.mode ECHO then do ttstart be (← ttyoutput fuel c t) else some t

/-- `passc` for the characters of the canonical queue, until `u_count` is used up. Only `mapped`
more bytes can be stored at `u_base`. -/
def passLoop : ℕ → ℕ → ℕ → Tty → Option (List Byte × Tty)
  | 0, _, _, _ => none
  | n + 1, u_count, mapped, t =>
    if t.count .t_canq = 0 then some ([], t)
    else
      let r := t.getc .t_canq
      if mapped = 0 then some ([], r.2)
      else if u_count = 1 then some ([BitVec.ofInt 8 r.1], r.2)
      else (passLoop n (u_count - 1) (mapped - 1) r.2).map fun p =>
        (BitVec.ofInt 8 r.1 :: p.1, p.2)

/-- A read of `u_count` bytes, and the bytes it stores. `readi` does not ask for none. -/
def ttread (u_count mapped : ℕ) (t : Tty) : Option (List Byte × Tty) :=
  if !t.is CARR_ON then some ([], t)
  else if t.count .t_canq ≠ 0 then passLoop (t.rounds .t_canq) u_count mapped t
  else do
    let (r, t) ← canon t
    if r ≠ 0 then passLoop (t.rounds .t_canq) u_count mapped t else some ([], t)

/-- `stty`: new modes and new erase and kill characters. -/
def ttystty (slept : Bool) (erase kill : Byte) (flags : Word) (t : Tty) : Option Tty :=
  (wflushtty slept t).map fun t => { t with t_erase := erase, t_kill := kill, t_flags := flags }

end Tty

end UnixV6
