import UnixV6.Dmr.Pc

/-!
# Delivery of a caught signal (`ken/sig.c`, `usr/startup.s`)

An interrupt saves the registers of the user in a frame of twelve words on the user stack. `psig`
duplicates that frame: the copy enters `_callsig` with the handler in `SI`, and the original is
rewritten in place to what the tail of `_callsig` pops. This file has both halves, the entry and the
exit of an interrupt (`dmr/m86.S`), and `estabur`, which rewrites a saved frame when the process
comes back from the swap area at another page. The `USTACK + ...` words of an image are the copy of
`u.u_stack` that `savu` and `retu` move. A process that a signal ends is not followed.
-/

open Function

namespace UnixV6.Psig

/-! ## The machine -/

/-- The registers an interrupt frame saves. -/
inductive Reg
  | ax | bx | cx | dx | si | di | bp | ds | es | ip | cs | flags
  deriving DecidableEq, Repr

/-- The instructions that the code below is made of. -/
inductive Insn
  | push (r : Reg)
  | pop (r : Reg)
  | popf
  | ret
  | iret
  deriving DecidableEq, Repr

/-- The processor, core, and what the kernel has of the process that runs. -/
structure Machine where
  reg : Reg → Word
  sp : ℕ
  ss : ℕ
  core : Core
  p_addr : ℕ
  p_sig : ℕ
  u_signal : ℕ → Word
  /-- `u.u_stack[KSSIZE - 2]`: the user stack pointer while the kernel runs. -/
  userSp : ℕ
  /-- `u.u_stack[KSSIZE - 1]` -/
  userSs : ℕ

namespace Machine

def push (w : Word) (c : Machine) : Machine :=
  { c with core := wrword c.core (c.sp - 2) c.ss w, sp := c.sp - 2 }

def pop (r : Reg) (c : Machine) : Machine :=
  { c with reg := update c.reg r (rdword c.core c.sp c.ss), sp := c.sp + 2 }

def exec (c : Machine) : Insn → Machine
  | .push r => c.push (c.reg r)
  | .pop r => c.pop r
  | .popf => c.pop .flags
  | .ret => c.pop .ip
  | .iret => ((c.pop .ip).pop .cs).pop .flags

def run (is : List Insn) (c : Machine) : Machine := is.foldl exec c

end Machine

open Machine

/-! ## Interrupts (`dmr/m86.S`) -/

/-- `ENTERISR`, after the processor has pushed the flags, `CS` and `IP`. -/
def ENTERISR : List Insn :=
  [.push .flags, .push .cs, .push .ip, .push .bp, .push .si, .push .di, .push .ax, .push .bx,
    .push .cx, .push .dx, .push .es, .push .ds]

def EXITISR : List Insn :=
  [.pop .ds, .pop .es, .pop .dx, .pop .cx, .pop .bx, .pop .ax, .pop .di, .pop .si, .pop .bp, .iret]

/-- From the user to the kernel stack. -/
def enter (c : Machine) : Machine :=
  let k := run ENTERISR c
  { k with userSp := k.sp, userSs := k.ss }

/-- `SWITCHTOUSERSTACK`, then back to the user. -/
def leave (k : Machine) : Machine :=
  run EXITISR { k with sp := k.userSp, ss := k.userSs }

/-! ## `sig.c` -/

/-- Offsets of the frame (`h/reg.h`). -/
def R_DS : ℕ := 0
@[inherit_doc R_DS] def R_ES : ℕ := 2
@[inherit_doc R_DS] def R_AX : ℕ := 10
@[inherit_doc R_DS] def R_SI : ℕ := 14
@[inherit_doc R_DS] def R_IP : ℕ := 18
@[inherit_doc R_DS] def R_CS : ℕ := 20
@[inherit_doc R_DS] def R_FLAG : ℕ := 22

/-- Signals whose handler stays set. -/
def SIGINS : ℕ := 4
@[inherit_doc SIGINS] def SIGTRC : ℕ := 5

/-- A word of the running process. -/
def fuword (k : Machine) (addr : ℕ) : Word := rdword k.core addr (segOf k.p_addr)

def suword (k : Machine) (addr : ℕ) (value : Word) : Machine :=
  { k with core := wrword k.core addr (segOf k.p_addr) value }

/-- Perform the action of the current signal, if it is caught. -/
def psig (k : Machine) : Option Machine :=
  let n := k.p_sig
  let k := { k with p_sig := 0 }
  let p := k.u_signal n
  if p ≠ 0 then
    let k := if n ≠ SIGINS ∧ n ≠ SIGTRC then { k with u_signal := update k.u_signal n 0 } else k
    -- duplicate the interrupt stack frame
    let k := { k with userSp := k.userSp - 24 }
    let ss := k.userSs
    let sp := k.userSp
    let k := { k with core := fmemcpy sp ss (sp + 24) ss 24 k.core }
    let k := suword k (sp + R_IP) 0x0006
    let k := suword k (sp + R_SI) p
    -- ip, cs, flag = ax, flag, return address
    let sp := sp + 24
    let k := suword k (sp + R_CS) (fuword k (sp + R_FLAG))
    let k := suword k (sp + R_FLAG) (fuword k (sp + R_IP))
    some (suword k (sp + R_IP) (fuword k (sp + R_AX)))
  else none

/-! ## `startup.s` -/

/-- `call *%si` at `_callsig`, which leaves the address `ra` of the next instruction. -/
def callHandler (ra : Word) (c : Machine) : Machine :=
  let c := c.push ra
  { c with reg := update c.reg .ip (c.reg .si) }

/-- The rest of `_callsig`. -/
def callsigTail : List Insn :=
  [.pop .ax, .pop .ax, .pop .dx, .pop .cx, .pop .bx, .pop .ax, .pop .di, .pop .si, .pop .bp,
    .pop .ax, .popf, .ret]

/-! ## `slp.c` -/

/-- Places of `u_stack` in the user structure (`h/user.h`). -/
def USER_SS : ℕ := 1022
@[inherit_doc USER_SS] def USER_SP : ℕ := 1020

/-- Relocate the saved registers of the image at page `addr`. -/
def estabur (addr : ℕ) (mem : Core) : Core :=
  let ss := segOf addr
  let mem := wrword mem (USTACK + USER_SS) ss (BitVec.ofNat 16 ss)
  let sp := (rdword mem (USTACK + USER_SP) ss).toNat
  let mem := wrword mem (sp + R_CS) ss (BitVec.ofNat 16 (ss + DSIZE * 256))
  let mem := wrword mem (sp + R_DS) ss (BitVec.ofNat 16 ss)
  wrword mem (sp + R_ES) ss (BitVec.ofNat 16 ss)

/-- The process leaves core and comes back at page `addr`: `savu`, the image at its new place,
`estabur`, `retu`. -/
def swapped (addr : ℕ) (k : Machine) : Machine :=
  let mem := wrword k.core (USTACK + USER_SP) (segOf k.p_addr) (BitVec.ofNat 16 k.userSp)
  let mem := wrword mem (USTACK + USER_SS) (segOf k.p_addr) (BitVec.ofNat 16 k.userSs)
  let mem := estabur addr fun x =>
    if pageAddr addr ≤ x ∧ x < pageAddr (addr + PSIZE) then
      mem (x - pageAddr addr + pageAddr k.p_addr)
    else mem x
  { k with
    core := mem
    p_addr := addr
    userSp := (rdword mem (USTACK + USER_SP) (segOf addr)).toNat
    userSs := (rdword mem (USTACK + USER_SS) (segOf addr)).toNat }


/-! ## Frames -/

/-- The registers in the frame at `sp`. -/
def frame (mem : Core) (sp ss : ℕ) : Reg → Word
  | .ds => rdword mem sp ss
  | .es => rdword mem (sp + 2) ss
  | .dx => rdword mem (sp + 4) ss
  | .cx => rdword mem (sp + 6) ss
  | .bx => rdword mem (sp + 8) ss
  | .ax => rdword mem (sp + 10) ss
  | .di => rdword mem (sp + 12) ss
  | .si => rdword mem (sp + 14) ss
  | .bp => rdword mem (sp + 16) ss
  | .ip => rdword mem (sp + 18) ss
  | .cs => rdword mem (sp + 20) ss
  | .flags => rdword mem (sp + 22) ss

/-- The exit of an interrupt loads the frame. -/
theorem leave_eq (k : Machine) : leave k = { k with
    reg := frame k.core k.userSp k.userSs, sp := k.userSp + 24, ss := k.userSs } := by
  have hreg : (leave k).reg = frame k.core k.userSp k.userSs := by
    ext r : 1
    cases r <;> simp [leave, run, EXITISR, exec, pop, frame, Nat.add_assoc]
  rw [← hreg]
  simp [leave, run, EXITISR, exec, pop]

/-- An interrupt that does nothing is not seen by the user. -/
theorem leave_enter {c : Machine} (hsp : 24 ≤ c.sp) :
    (leave (enter c)).reg = c.reg ∧ (leave (enter c)).sp = c.sp ∧ (leave (enter c)).ss = c.ss := by
  obtain ⟨g, hg⟩ : ∃ g, c.sp = g + 24 := ⟨c.sp - 24, by omega⟩
  have husp : (enter c).userSp = g := by
    simp [enter, run, ENTERISR, exec, push, hg]
  have huss : (enter c).userSs = c.ss := by
    simp [enter, run, ENTERISR, exec, push]
  rw [leave_eq, husp, huss]
  refine ⟨?_, by simp only [hg], rfl⟩
  ext r : 1
  cases r <;>
    simp (disch := omega) only [frame, enter, run, ENTERISR, exec, push, hg, List.foldl_cons,
      List.foldl_nil, Nat.add_sub_cancel, Nat.reduceSubDiff, rdword_wrword_ne, rdword_wrword]

/-- The words that the tail of `_callsig` takes, from the stack pointer on. -/
def callsigFrame (c : Machine) : Reg → Word
  | .ax => rdword c.core (c.sp + 18) c.ss
  | .flags => rdword c.core (c.sp + 20) c.ss
  | .ip => rdword c.core (c.sp + 22) c.ss
  | .ds => c.reg .ds
  | .es => c.reg .es
  | .cs => c.reg .cs
  | r => frame c.core c.sp c.ss r

theorem run_callsigTail (c : Machine) :
    run callsigTail c = { c with reg := callsigFrame c, sp := c.sp + 24 } := by
  have hreg : (run callsigTail c).reg = callsigFrame c := by
    ext r : 1
    cases r <;> simp [run, callsigTail, exec, pop, callsigFrame, frame, Nat.add_assoc]
  rw [← hreg]
  simp [run, callsigTail, exec, pop]

/-- The kernel has a frame on the user stack of the process. -/
structure Saved (k : Machine) : Prop where
  ss : k.userSs = segOf k.p_addr
  top : k.userSp + 24 ≤ USTACK

/-- The stack of `s` from `m` on is as it was, and at the place of the process. -/
structure Intact (m : ℕ) (s t : Machine) : Prop where
  ss : t.ss = segOf t.p_addr
  byte : ∀ off, m ≤ off → off < USTACK →
    t.core (linear off (segOf t.p_addr)) = s.core (linear off (segOf s.p_addr))

/-- Registers other than the segments make no difference. -/
theorem Intact.of_regs {m : ℕ} {s : Machine} (h : s.ss = segOf s.p_addr) (reg : Reg → Word)
    (sp : ℕ) : Intact m s { s with reg := reg, sp := sp } :=
  ⟨h, fun _ _ _ => rfl⟩

/-- What is intact from a point is intact from every later one. -/
theorem Intact.mono {m m' : ℕ} {s t : Machine} (h : Intact m s t) (hle : m ≤ m') :
    Intact m' s t :=
  ⟨h.ss, fun off hm htop => h.byte off (by omega) htop⟩

/-- Two runs that each leave the stack above `m` alone leave it alone together. -/
theorem Intact.trans {m : ℕ} {s t w : Machine} (h₁ : Intact m s t) (h₂ : Intact m t w) :
    Intact m s w :=
  ⟨h₂.ss, fun off hm htop => (h₂.byte off hm htop).trans (h₁.byte off hm htop)⟩

/-- Words of an intact part of the stack. -/
theorem Intact.word {m off : ℕ} {s t : Machine} (h : Intact m s t) (hm : m ≤ off)
    (htop : off + 2 ≤ USTACK) :
    rdword t.core off (segOf t.p_addr) = rdword s.core off (segOf s.p_addr) := by
  apply rdword_congr
  · exact h.byte off hm (by omega)
  · rw [← linear_add, ← linear_add]
    exact h.byte (off + 1) (by omega) (by omega)

/-! ## What `psig` leaves -/

/-- The duplicate of a frame. -/
theorem rdword_fmemcpy {mem : Core} {g seg i : ℕ} (hi : i + 2 ≤ 24) :
    rdword (fmemcpy g seg (g + 24) seg 24 mem) (g + i) seg = rdword mem (g + 24 + i) seg := by
  have hdis : linear g seg + 2 * (24 / 2) ≤ linear (g + 24) seg := by
    rw [linear_add]
  simp only [fmemcpy, Nat.reduceMod, if_true]
  apply rdword_congr
  · rw [movsw_apply (.inl hdis), linear_add, if_pos (by omega)]
    congr 1
    simp only [linear_add]
    omega
  · rw [movsw_apply (.inl hdis), linear_add, if_pos (by omega)]
    congr 1
    simp only [linear_add]
    omega

/-- The copy leaves the rest of the segment alone. -/
theorem fmemcpy_outside {mem : Core} {g seg x : ℕ} (hx : x < linear g seg ∨ linear g seg + 24 ≤ x) :
    fmemcpy g seg (g + 24) seg 24 mem x = mem x := by
  have hdis : linear g seg + 2 * (24 / 2) ≤ linear (g + 24) seg := by
    rw [linear_add]
  simp only [fmemcpy, Nat.reduceMod, if_true]
  rw [movsw_apply (.inl hdis), if_neg (by omega)]

/-- Copying the frame down leaves the words above it. -/
theorem rdword_fmemcpy_ge {mem : Core} {g seg off : ℕ} (hoff : g + 24 ≤ off) :
    rdword (fmemcpy g seg (g + 24) seg 24 mem) off seg = rdword mem off seg := by
  apply rdword_congr
  · exact fmemcpy_outside (.inr (by simp only [linear]; omega))
  · exact fmemcpy_outside (.inr (by simp only [linear]; omega))

/-- The core that `psig` leaves when the duplicate is at `g`. -/
def rewritten (mem : Core) (g seg : ℕ) (p : Word) : Core :=
  let mem := fmemcpy g seg (g + 24) seg 24 mem
  let mem := wrword mem (g + R_IP) seg 0x0006
  let mem := wrword mem (g + R_SI) seg p
  let mem := wrword mem (g + 24 + R_CS) seg (rdword mem (g + 24 + R_FLAG) seg)
  let mem := wrword mem (g + 24 + R_FLAG) seg (rdword mem (g + 24 + R_IP) seg)
  wrword mem (g + 24 + R_IP) seg (rdword mem (g + 24 + R_AX) seg)

/-- The duplicate enters the stub with the handler in `SI`. -/
theorem frame_rewritten (mem : Core) (g seg : ℕ) (p : Word) :
    frame (rewritten mem g seg p) g seg =
      update (update (frame mem (g + 24) seg) .ip 0x0006) .si p := by
  have hcopy : ∀ i, i + 2 ≤ 24 → rdword (fmemcpy g seg (g + 24) seg 24 mem) (g + i) seg =
      rdword mem (g + 24 + i) seg := fun i hi => rdword_fmemcpy hi
  have hcopy₀ : rdword (fmemcpy g seg (g + 24) seg 24 mem) g seg = rdword mem (g + 24) seg :=
    hcopy 0 (by omega)
  ext r : 1
  cases r <;>
    simp (disch := omega) only [frame, rewritten, R_IP, R_SI, R_CS, R_FLAG, R_AX,
      rdword_wrword_ne, rdword_wrword, hcopy, hcopy₀, update_apply, reduceCtorEq, if_true,
      if_false]

/-- The words of the old frame below `IP` are unchanged. -/
theorem rewritten_kept {mem : Core} {g seg i : ℕ} {p : Word} (hi : i + 2 ≤ 18) :
    rdword (rewritten mem g seg p) (g + 24 + i) seg = rdword mem (g + 24 + i) seg := by
  simp (disch := omega) only [rewritten, R_IP, R_SI, R_CS, R_FLAG, R_AX, rdword_wrword_ne,
    rdword_fmemcpy_ge]

/-- The last three hold `AX`, the flags and `IP`. -/
theorem rewritten_ax (mem : Core) (g seg : ℕ) (p : Word) :
    rdword (rewritten mem g seg p) (g + 24 + 18) seg = rdword mem (g + 24 + 10) seg := by
  simp (disch := omega) only [rewritten, R_IP, R_SI, R_CS, R_FLAG, R_AX, rdword_wrword_ne,
    rdword_wrword, rdword_fmemcpy_ge]

/-- The rewritten frame returns with the saved flags. -/
theorem rewritten_flags (mem : Core) (g seg : ℕ) (p : Word) :
    rdword (rewritten mem g seg p) (g + 24 + 20) seg = rdword mem (g + 24 + 22) seg := by
  simp (disch := omega) only [rewritten, R_IP, R_SI, R_CS, R_FLAG, R_AX, rdword_wrword_ne,
    rdword_wrword, rdword_fmemcpy_ge]

/-- The rewritten frame returns to the interrupted instruction. -/
theorem rewritten_ip (mem : Core) (g seg : ℕ) (p : Word) :
    rdword (rewritten mem g seg p) (g + 24 + 22) seg = rdword mem (g + 24 + 18) seg := by
  simp (disch := omega) only [rewritten, R_IP, R_SI, R_CS, R_FLAG, R_AX, rdword_wrword_ne,
    rdword_wrword, rdword_fmemcpy_ge]

/-- Above the old frame nothing changes. -/
theorem rewritten_above {mem : Core} {g seg off : ℕ} {p : Word} (hoff : g + 24 + 24 ≤ off) :
    rewritten mem g seg p (linear off seg) = mem (linear off seg) := by
  simp only [rewritten, R_IP, R_SI, R_CS, R_FLAG, R_AX]
  iterate 5 rw [wrword_outside (.inr (by simp only [linear]; omega))]
  exact fmemcpy_outside (.inr (by simp only [linear]; omega))

/-- What `psig` does with a caught signal. -/
theorem psig_some {k k' : Machine} (hk : Saved k) (hp : psig k = some k') :
    k'.core = rewritten k.core (k.userSp - 24) (segOf k.p_addr) (k.u_signal k.p_sig) ∧
      k'.userSp = k.userSp - 24 ∧ k'.userSs = k.userSs ∧ k'.p_addr = k.p_addr := by
  have hss := hk.ss
  simp only [psig] at hp
  split at hp
  · split at hp
    all_goals
      obtain rfl := Option.some.inj hp
      simp [suword, fuword, rewritten, hss]
  · simp at hp

/-! ## A process that moves -/

/-- `k` after the process has left core and come back any number of times. -/
def Moved (k t : Machine) : Prop :=
  Relation.ReflTransGen (fun k t => ∃ addr < 256, t = swapped addr k) k t

/-- The segment words of a frame. -/
def IsSegment (off sp : ℕ) : Prop := sp ≤ off ∧ off < sp + 4 ∨ sp + 20 ≤ off ∧ off < sp + 22

theorem segOf_eq (page : ℕ) : segOf page = page * 256 := rfl

/-- The image at its new place, before the segment words are written. -/
theorem image_byte {mem : Core} {addr page off : ℕ} (hoff : off < 65536) :
    (fun x => if pageAddr addr ≤ x ∧ x < pageAddr (addr + PSIZE) then
        mem (x - pageAddr addr + pageAddr page) else mem x) (linear off (segOf addr)) =
      mem (linear off (segOf page)) := by
  simp only [segOf_eq, linear_page]
  rw [if_pos (by simp only [pageAddr, PSIZE]; omega)]
  congr 1
  omega

/-- `estabur` writes the stack segment and the segment words of the frame. -/
theorem estabur_spec {mem : Core} {addr sp : ℕ}
    (hsp : rdword mem (USTACK + USER_SP) (segOf addr) = BitVec.ofNat 16 sp)
    (htop : sp + 24 ≤ USTACK) :
    rdword (estabur addr mem) (USTACK + USER_SP) (segOf addr) = BitVec.ofNat 16 sp ∧
      rdword (estabur addr mem) (USTACK + USER_SS) (segOf addr) = BitVec.ofNat 16 (segOf addr) ∧
      ∀ off, off < USTACK → ¬ IsSegment off sp →
        estabur addr mem (linear off (segOf addr)) = mem (linear off (segOf addr)) := by
  have htop' : sp + 24 ≤ 0xFC00 := htop
  have hword : (rdword (wrword mem (USTACK + USER_SS) (segOf addr) (BitVec.ofNat 16 (segOf addr)))
      (USTACK + USER_SP) (segOf addr)).toNat = sp := by
    rw [rdword_wrword_ne (by simp only [USER_SS, USER_SP]; omega), hsp, BitVec.toNat_ofNat]
    omega
  simp only [estabur, hword]
  refine ⟨?_, ?_, ?_⟩
  · simp (disch := simp only [USTACK, USER_SS, USER_SP, R_CS, R_DS, R_ES]; omega) only
      [rdword_wrword_ne, hsp]
  · simp (disch := simp only [USTACK, USER_SS, USER_SP, R_CS, R_DS, R_ES]; omega) only
      [rdword_wrword_ne, rdword_wrword]
  · intro off hoff hseg
    have hoff' : off < 0xFC00 := hoff
    simp only [IsSegment] at hseg
    simp only [R_CS, R_DS, R_ES, USTACK, USER_SS]
    iterate 4 rw [wrword_outside (by simp only [linear]; omega)]

/-- A move keeps the user stack pointer, and of the image below the user structure everything but
the segment words of the saved frame. -/
theorem swapped_spec {k : Machine} {addr : ℕ} (hk : Saved k) (haddr : addr < 256) :
    Saved (swapped addr k) ∧ (swapped addr k).userSp = k.userSp ∧
      ∀ off, off < USTACK → ¬ IsSegment off k.userSp →
        (swapped addr k).core (linear off (segOf addr)) = k.core (linear off (segOf k.p_addr)) := by
  have htop := hk.top
  have htop' : k.userSp + 24 ≤ 0xFC00 := htop
  -- the image with the user structure that `savu` stored
  let mem := wrword (wrword k.core (USTACK + USER_SP) (segOf k.p_addr) (BitVec.ofNat 16 k.userSp))
    (USTACK + USER_SS) (segOf k.p_addr) (BitVec.ofNat 16 k.userSs)
  let image : Core := fun x =>
    if pageAddr addr ≤ x ∧ x < pageAddr (addr + PSIZE) then
      mem (x - pageAddr addr + pageAddr k.p_addr)
    else mem x
  have himage : ∀ off, off < 65536 →
      image (linear off (segOf addr)) = mem (linear off (segOf k.p_addr)) :=
    fun off hoff => image_byte hoff
  have hsaved : rdword image (USTACK + USER_SP) (segOf addr) = BitVec.ofNat 16 k.userSp := by
    have hmem : rdword mem (USTACK + USER_SP) (segOf k.p_addr) = BitVec.ofNat 16 k.userSp := by
      simp only [mem]
      rw [rdword_wrword_ne (by simp only [USER_SS, USER_SP]; omega), rdword_wrword]
    rw [← hmem]
    apply rdword_congr
    · exact himage _ (by simp [USTACK, USER_SP])
    · rw [← linear_add, ← linear_add]
      exact himage _ (by simp [USTACK, USER_SP])
  obtain ⟨hsp, hss, hbyte⟩ := estabur_spec hsaved htop
  have husp : (swapped addr k).userSp = k.userSp := by
    show (rdword (estabur addr image) (USTACK + USER_SP) (segOf addr)).toNat = k.userSp
    rw [hsp, BitVec.toNat_ofNat]
    omega
  refine ⟨⟨?_, by rw [husp]; exact htop⟩, husp, ?_⟩
  · show (rdword (estabur addr image) (USTACK + USER_SS) (segOf addr)).toNat = segOf addr
    rw [hss, BitVec.toNat_ofNat, segOf]
    omega
  · intro off hoff hseg
    have hoff' : off < 0xFC00 := hoff
    show estabur addr image (linear off (segOf addr)) = _
    rw [hbyte off hoff hseg, himage off (by omega)]
    simp only [mem, USTACK, USER_SP, USER_SS]
    iterate 2 rw [wrword_outside (by simp only [linear]; omega)]

/-- Any number of moves. -/
structure Kept (k t : Machine) : Prop where
  saved : Saved t
  userSp : t.userSp = k.userSp
  byte : ∀ off, off < USTACK → ¬ IsSegment off k.userSp →
    t.core (linear off (segOf t.p_addr)) = k.core (linear off (segOf k.p_addr))

theorem Moved.kept {k t : Machine} (hk : Saved k) (h : Moved k t) : Kept k t := by
  induction h with
  | refl => exact ⟨hk, rfl, fun off _ _ => rfl⟩
  | tail _ hstep ih =>
    obtain ⟨addr, haddr, rfl⟩ := hstep
    obtain ⟨hsaved, husp, hbyte⟩ := swapped_spec ih.saved haddr
    refine ⟨hsaved, husp.trans ih.userSp, fun off hoff hseg => ?_⟩
    rw [← ih.byte off hoff hseg]
    exact hbyte off hoff (by rw [ih.userSp]; exact hseg)

/-- The words of a saved frame that later code reads are still there. -/
theorem Kept.word {k t : Machine} {i : ℕ} (h : Kept k t)
    (hi : 4 ≤ i ∧ i + 2 ≤ 20 ∨ i = 22) :
    rdword t.core (t.userSp + i) t.userSs = rdword k.core (k.userSp + i) (segOf k.p_addr) := by
  have htop : k.userSp + 24 ≤ USTACK := by
    rw [← h.userSp]
    exact h.saved.top
  rw [h.saved.ss, h.userSp]
  apply rdword_congr
  · exact h.byte _ (by omega) (by simp only [IsSegment]; omega)
  · rw [← linear_add, ← linear_add]
    exact h.byte _ (by omega) (by simp only [IsSegment]; omega)

/-! ## Transparency -/

/-- The user of `t` has the registers that the user of `s` has, and the stack that is in use. -/
structure Resumes (t s : Machine) : Prop where
  ip : t.reg .ip = s.reg .ip
  sp : t.sp = s.sp
  flags : t.reg .flags = s.reg .flags
  ax : t.reg .ax = s.reg .ax
  bx : t.reg .bx = s.reg .bx
  cx : t.reg .cx = s.reg .cx
  dx : t.reg .dx = s.reg .dx
  si : t.reg .si = s.reg .si
  di : t.reg .di = s.reg .di
  bp : t.reg .bp = s.reg .bp
  stack : Intact s.sp s t

/-- A move of a process that is about to return to its program. -/
theorem Moved.resumes {k t : Machine} (hk : Saved k) (h : Moved k t) :
    Resumes (leave t) (leave k) := by
  have hkept := h.kept hk
  rw [leave_eq, leave_eq]
  have hword : ∀ i, (4 ≤ i ∧ i + 2 ≤ 20 ∨ i = 22) → rdword t.core (t.userSp + i) t.userSs =
      rdword k.core (k.userSp + i) k.userSs := fun i hi => by
    rw [hk.ss]
    exact hkept.word hi
  constructor
  case sp => simp only [hkept.userSp]
  case stack =>
    refine ⟨hkept.saved.ss, fun off hm htop => hkept.byte off htop ?_⟩
    simp only at hm
    simp only [IsSegment]
    omega
  all_goals exact hword _ (by omega)

/-- The duplicate that `psig` leaves is a frame again. -/
theorem psig_saved {k k' : Machine} (hk : Saved k) (hroom : 26 ≤ k.userSp)
    (hp : psig k = some k') : Saved k' := by
  obtain ⟨-, husp, huss, hpaddr⟩ := psig_some hk hp
  have htop := hk.top
  refine ⟨by rw [huss, hpaddr, hk.ss], by rw [husp]; omega⟩

/-- The user enters `_callsig` with the handler in `SI`, and with the stack pointer at the frame
that was interrupted. -/
theorem psig_entry {k k' t : Machine} (hk : Saved k) (hroom : 26 ≤ k.userSp)
    (hp : psig k = some k') (hmove : Moved k' t) :
    (leave t).reg .ip = 0x0006 ∧ (leave t).reg .si = k.u_signal k.p_sig ∧
      (leave t).sp = k.userSp ∧ (leave t).ss = segOf (leave t).p_addr := by
  have hk' := psig_saved hk hroom hp
  obtain ⟨hcore, husp, huss, hpaddr⟩ := psig_some hk hp
  have hres := hmove.resumes hk'
  have hframe : (leave k').reg = update (update (frame k.core k.userSp k.userSs) .ip 0x0006) .si
      (k.u_signal k.p_sig) := by
    simp only [leave_eq]
    rw [huss, hk.ss, hcore, husp, frame_rewritten, Nat.sub_add_cancel (by omega)]
  refine ⟨?_, ?_, ?_, ?_⟩
  · rw [hres.ip, hframe]
    simp
  · rw [hres.si, hframe]
    simp
  · rw [hres.sp, leave_eq]
    simp only [husp]
    omega
  · exact hres.stack.ss

/-- The stack from the interrupted frame on is what `psig` left when the handler is entered. -/
theorem callHandler_intact {k k' t : Machine} (ra : Word) (hk : Saved k) (hroom : 26 ≤ k.userSp)
    (hp : psig k = some k') (hmove : Moved k' t) :
    Intact k.userSp k' (callHandler ra (leave t)) := by
  have hk' := psig_saved hk hroom hp
  have hres := hmove.resumes hk'
  obtain ⟨-, -, hsp, hss⟩ := psig_entry hk hroom hp hmove
  have husp : (leave k').sp = k.userSp := by rw [← hres.sp, hsp]
  refine ⟨hss, fun off hm htop => ?_⟩
  have hbyte := hres.stack.byte off (by rw [husp]; exact hm) htop
  rw [show (leave k').core = k'.core from by rw [leave_eq],
    show (leave k').p_addr = k'.p_addr from by rw [leave_eq]] at hbyte
  rw [← hbyte]
  -- the return address is just below
  show wrword (leave t).core ((leave t).sp - 2) (leave t).ss ra (linear off (segOf (leave t).p_addr))
    = _
  rw [wrword_outside (by rw [hss, hsp]; simp only [linear]; omega)]

/-- When a handler returns with the stack from its frame on intact, the tail of `_callsig` resumes
the program as if there had been no signal. -/
theorem callsigTail_resumes {k k' t e : Machine} {ra : Word} (hk : Saved k)
    (hroom : 26 ≤ k.userSp) (hp : psig k = some k') (hmove : Moved k' t)
    (he : Intact k.userSp (callHandler ra (leave t)) e) (hsp : e.sp = k.userSp) :
    Resumes (run callsigTail e) (leave k) := by
  obtain ⟨hcore, husp, huss, hpaddr⟩ := psig_some hk hp
  have hstack := (callHandler_intact ra hk hroom hp hmove).trans he
  have htop := hk.top
  obtain ⟨g, hg⟩ : ∃ g, k.userSp = g + 24 := ⟨k.userSp - 24, by omega⟩
  rw [hg, Nat.add_sub_cancel] at hcore
  -- the words that the tail takes are those that psig left
  have hword : ∀ i, i + 2 ≤ 24 → rdword e.core (e.sp + i) e.ss =
      rdword (rewritten k.core g (segOf k.p_addr) (k.u_signal k.p_sig)) (g + 24 + i)
        (segOf k.p_addr) := fun i hi => by
    rw [hstack.ss, hsp, hstack.word (by omega) (by omega), hcore, hpaddr, hg]
  have hkept : ∀ i, i + 2 ≤ 18 → rdword e.core (e.sp + i) e.ss =
      rdword k.core (k.userSp + i) k.userSs := fun i hi => by
    rw [hword i (by omega), rewritten_kept hi, hg, hk.ss]
  rw [run_callsigTail, leave_eq]
  constructor
  case ip =>
    show rdword e.core (e.sp + 22) e.ss = rdword k.core (k.userSp + 18) k.userSs
    rw [hword 22 (by omega), rewritten_ip, hg, hk.ss]
  case flags =>
    show rdword e.core (e.sp + 20) e.ss = rdword k.core (k.userSp + 22) k.userSs
    rw [hword 20 (by omega), rewritten_flags, hg, hk.ss]
  case ax =>
    show rdword e.core (e.sp + 18) e.ss = rdword k.core (k.userSp + 10) k.userSs
    rw [hword 18 (by omega), rewritten_ax, hg, hk.ss]
  case sp => simp only [hsp]
  case stack =>
    refine ⟨hstack.ss, fun off hm htop => ?_⟩
    simp only at hm
    show e.core _ = k.core _
    rw [hstack.byte off (by omega) htop, hcore, hpaddr]
    exact rewritten_above (by omega)
  all_goals exact hkept _ (by omega)

/-- The handler's own `ret`: it is back in `_callsig`, with the frame it was entered on next on the
stack. -/
structure Returned (ra : Word) (k e : Machine) : Prop where
  ip : e.reg .ip = ra
  sp : e.sp = k.userSp

/-- Runs of a program whose stack from `m` on is not its own to change, with signals. `ra` is the
address in `_callsig` that handlers return to. -/
inductive Runs (ra : Word) : ℕ → Machine → Machine → Prop
  | done {m : ℕ} {s : Machine} : Runs ra m s s
  /-- Code of the program, and calls and interrupts that deliver no signal. -/
  | code {m : ℕ} {s t w : Machine} (hcode : Intact m s t) (hrest : Runs ra m t w) : Runs ra m s w
  /-- The process is moved while the kernel holds its frame. -/
  | moved {m : ℕ} {k t w : Machine} (hk : Saved k) (hm : k.userSp + 24 ≤ m) (hmove : Moved k t)
      (hrest : Runs ra m (leave t) w) : Runs ra m (leave k) w
  /-- Where the program would have been resumed a signal is delivered: its handler runs, with
  signals of its own, and returns to `_callsig`. -/
  | signal {m : ℕ} {k k' t e w : Machine} (hk : Saved k) (hroom : 26 ≤ k.userSp)
      (hm : k.userSp + 24 ≤ m) (hpsig : psig k = some k') (hmove : Moved k' t)
      (hhandler : Runs ra k.userSp (callHandler ra (leave t)) e)
      (hret : Returned ra k e) (hrest : Runs ra m (run callsigTail e) w) : Runs ra m (leave k) w

/-- A run changes nothing of the stack that is not its own, whatever signals come and however
deep. -/
theorem Runs.intact {ra : Word} {m : ℕ} {s w : Machine} (h : Runs ra m s w)
    (hs : s.ss = segOf s.p_addr) : Intact m s w := by
  induction h with
  | done => exact ⟨hs, fun _ _ _ => rfl⟩
  | code hcode _ ih => exact hcode.trans (ih hcode.ss)
  | moved hk hm hmove _ ih =>
    have hstack := (hmove.resumes hk).stack
    refine (hstack.mono ?_).trans (ih hstack.ss)
    rw [leave_eq]
    exact hm
  | signal hk hroom hm hpsig hmove _ hret _ ihhandler ihrest =>
    have hentry := (callHandler_intact ra hk hroom hpsig hmove).ss
    have hstack := (callsigTail_resumes hk hroom hpsig hmove (ihhandler hentry) hret.sp).stack
    refine (hstack.mono ?_).trans (ihrest hstack.ss)
    rw [leave_eq]
    exact hm

/-- Delivery of a signal is transparent: the user enters `_callsig` with the handler in `SI`, and
when the handler returns, after any signals of its own and any moves of the process, the program
continues with the registers and the stack it would have been resumed with. -/
theorem psig_transparent {ra : Word} {k k' t e : Machine} (hk : Saved k) (hroom : 26 ≤ k.userSp)
    (hpsig : psig k = some k') (hmove : Moved k' t)
    (hhandler : Runs ra k.userSp (callHandler ra (leave t)) e) (hret : Returned ra k e) :
    (leave t).reg .ip = 0x0006 ∧ (leave t).reg .si = k.u_signal k.p_sig ∧
      Resumes (run callsigTail e) (leave k) := by
  obtain ⟨hentry, hsi, -, -⟩ := psig_entry hk hroom hpsig hmove
  have hss := (callHandler_intact ra hk hroom hpsig hmove).ss
  exact ⟨hentry, hsi, callsigTail_resumes hk hroom hpsig hmove (hhandler.intact hss) hret.sp⟩

/-- The program of a process at page 32, with signal 2 pending and every signal caught. -/
def program : Machine where
  reg := fun _ => 0x55
  sp := 0x8018
  ss := segOf 32
  core := fun x => BitVec.ofNat 8 x
  p_addr := 32
  p_sig := 2
  u_signal := fun _ => 0x100
  userSp := 0
  userSs := 0

/-- An interrupt comes. -/
def interrupted : Machine := enter program

/-- `psig` of a caught signal succeeds. -/
theorem psig_eq_some {k : Machine} (h : k.u_signal k.p_sig ≠ 0) : ∃ k', psig k = some k' := by
  apply Option.ne_none_iff_exists'.mp
  simp only [psig]
  rw [if_pos h]
  exact Option.some_ne_none _

/-- `interrupted` with signal 3 delivered while the handler of signal 2 runs, and a move of the
process. -/
theorem psig_transparent_nested : ∃ k' e, psig interrupted = some k' ∧
    Runs 0x30 0x8000 (callHandler 0x30 (leave (swapped 64 k'))) e ∧
    Resumes (run callsigTail e) (leave interrupted) ∧ (leave interrupted).reg = program.reg := by
  have hk : Saved interrupted := ⟨rfl, by decide⟩
  have hroom : 26 ≤ interrupted.userSp := by decide
  obtain ⟨k', hk'⟩ := psig_eq_some (k := interrupted) (by decide)
  have hmove : Moved k' (swapped 64 k') := .single ⟨64, by decide, rfl⟩
  have hentry := callHandler_intact 0x30 hk hroom hk' hmove
  -- the handler is interrupted further down the stack
  let k₁ : Machine :=
    { callHandler 0x30 (leave (swapped 64 k')) with
      p_sig := 3, u_signal := fun _ => 0x200, userSp := 0x7000, userSs := segOf 64 }
  have hk₁ : Saved k₁ := ⟨by simp [k₁, callHandler, push, leave_eq, swapped], by
    show 0x7000 + 24 ≤ 0xFC00
    omega⟩
  have hroom₁ : 26 ≤ k₁.userSp := by
    show 26 ≤ 0x7000
    omega
  obtain ⟨k₁', hk₁'⟩ := psig_eq_some (k := k₁) (by simp [k₁])
  have hentry₁ := callHandler_intact 0x30 hk₁ hroom₁ hk₁' .refl
  let e₁ : Machine := { callHandler 0x30 (leave k₁') with
    reg := fun _ => 0x30, sp := 0x7000 }
  have hrun₁ : Runs 0x30 k₁.userSp (callHandler 0x30 (leave k₁')) e₁ :=
    .code (.of_regs hentry₁.ss _ _) .done
  have hstack₁ := (callsigTail_resumes hk₁ hroom₁ hk₁' .refl (hrun₁.intact hentry₁.ss) rfl).stack
  let e : Machine := { run callsigTail e₁ with reg := fun _ => 0x30, sp := 0x8000 }
  have hrun : Runs 0x30 interrupted.userSp (callHandler 0x30 (leave (swapped 64 k'))) e := by
    refine .code (t := leave k₁) ⟨?_, fun off _ _ => ?_⟩
      (.signal hk₁ hroom₁ (by show 0x7000 + 24 ≤ 0x8000; omega) hk₁' .refl hrun₁ ⟨rfl, rfl⟩
        (.code (.of_regs hstack₁.ss _ _) .done))
    · rw [leave_eq]
      exact hk₁.ss
    · rw [leave_eq]
  exact ⟨k', e, hk', hrun, (psig_transparent hk hroom hk' hmove hrun ⟨rfl, rfl⟩).2.2,
    (leave_enter (by decide)).1⟩

end UnixV6.Psig
