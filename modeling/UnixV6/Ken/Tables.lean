import UnixV6.Ken.Sig

/-!
# Indices into kernel tables (`ken/trap.c`, `ken/sig.c`, `ken/fio.c`, `ken/sys3.c`)

Every place where a number that a user controls ends up as an index: the system call number, signal
numbers, descriptors, and the major device numbers of special files. A number may be stored between
the call that brings it in and the access: in `p_sig`, in the inode of a special file, in an open
file, in the mount table. `accesses` lists what a step looks up; `step` is what it stores.

An inode number stands for an inode; `node` has the special files. Which processes `kill` selects,
and whether a close is the last, is left open.
-/

open Function

namespace UnixV6

/-- The tables. -/
inductive KTable
  | sysent | u_signal | u_ofile | bdevsw | cdevsw
  deriving DecidableEq, Repr

namespace KTable

/-- Entries of `bdevsw` before the end mark, as `binit` counts them. -/
def nblkdev : ℤ := 1

/-- Entries of `cdevsw` before the end mark, as `cinit` counts them. -/
def nchrdev : ℤ := 2

end KTable

/-- The number of entries. -/
def KTable.size : KTable → ℤ
  | .sysent => 64
  | .u_signal => NSIG
  | .u_ofile => NOFILE
  | .bdevsw => KTable.nblkdev
  | .cdevsw => KTable.nchrdev

/-- One lookup. -/
structure Access where
  table : KTable
  idx : ℤ
  deriving DecidableEq, Repr

def Access.InBounds (x : Access) : Prop := 0 ≤ x.idx ∧ x.idx < x.table.size

instance (x : Access) : Decidable x.InBounds :=
  inferInstanceAs (Decidable (0 ≤ x.idx ∧ x.idx < x.table.size))

/-- `major(dev)`, a shift of a signed number. -/
def major (dev : ℤ) : ℤ := dev / 256

/-- A special file: `IFCHR` or `IFBLK`, with the number in `i_addr[0]`. -/
structure Special where
  chr : Bool
  dev : ℤ
  deriving DecidableEq, Repr

/-- The switch of a special file. -/
def Special.switch (x : Special) : KTable := if x.chr then .cdevsw else .bdevsw

/-- `openi` refuses the device. -/
def Special.enxio (x : Special) : Bool := x.switch.size ≤ major x.dev

/-- `closei`, `openi` behind its check, and the calls of character devices. -/
def Special.access (x : Special) : Access := ⟨x.switch, major x.dev⟩

/-- `bread` and `breada`: `incore`, `getblk` with its panic and its way round for negative numbers,
and the strategy routine. -/
def breadAccess (dev : ℤ) : List Access :=
  if major dev ≥ KTable.nblkdev then []
  else (if dev < 0 then [] else [⟨.bdevsw, major dev⟩]) ++ [⟨.bdevsw, major dev⟩]

/-- `readi` and `writei` of a special file. -/
def Special.rdwrAccess (x : Special) : List Access :=
  if x.chr then [x.access] else ⟨.bdevsw, major x.dev⟩ :: breadAccess x.dev

/-- The stored numbers. -/
structure TabSys where
  p_sig : Slot → ℤ
  node : ℕ → Option Special
  u_ofile : Slot → ℤ → Option ℕ
  mounted : ℤ → Bool

/-- The calls, with the numbers that they bring in. -/
inductive TabAct
  /-- A trap with `DX`. -/
  | trap (p : Slot) (dx : ℤ)
  /-- `issig`, in a trap, on a clock tick or around a sleep. -/
  | issig (p : Slot)
  | psig (p : Slot)
  | ssig (p : Slot) (a : ℤ)
  | kill (sel : Slot → Bool) (sig : ℤ)
  | tty (sel : Slot → Bool) (quit : Bool)
  | epipe (p : Slot)
  /-- A new special file. -/
  | mknod (i : ℕ) (x : Special)
  /-- The last link and the last reference of an inode are gone. -/
  | ifree (i : ℕ)
  /-- `open`, `creat`, and each half of `pipe`. -/
  | open (p : Slot) (i : ℕ)
  /-- `read` and `write`. -/
  | rdwr (p : Slot) (f : ℤ)
  /-- `seek` and `fstat`. -/
  | seek (p : Slot) (f : ℤ)
  | sgtty (p : Slot) (f : ℤ)
  | close (p : Slot) (f : ℤ) (last : Bool)
  | dup (p : Slot) (f : ℤ)
  | fork (p c : Slot)
  | exit (p : Slot)
  /-- `mount` of the device `i`; `go` says that nothing but the number can stop it. -/
  | smount (i : ℕ) (go : Bool)
  | sumount (i : ℕ)
  /-- A block of a mounted device is looked up. -/
  | fsio (d : ℤ)

namespace TabSys

/-- The descriptors that the loops run through. -/
def descriptors : List ℤ := (List.range NOFILE).map Int.ofNat

/-- The file of a descriptor. -/
def getf (s : TabSys) (p : Slot) (f : ℤ) : Option ℕ :=
  if f < 0 ∨ f ≥ NOFILE then none else s.u_ofile p f

def getfAccess (f : ℤ) : List Access :=
  if f < 0 ∨ f ≥ NOFILE then [] else [⟨.u_ofile, f⟩]

/-- The first free descriptor. -/
def ufalloc (s : TabSys) (p : Slot) : Option ℤ :=
  descriptors.find? fun f => (s.u_ofile p f).isNone

def ofileAccess : List Access := descriptors.map fun f => ⟨.u_ofile, f⟩

/-- `getmdev`. -/
def getmdev (s : TabSys) (i : ℕ) : Option ℤ :=
  match s.node i with
  | some x => if x.chr then none else if major x.dev ≥ KTable.nblkdev then none else some x.dev
  | none => none

/-- The special file behind a descriptor. -/
def special (s : TabSys) (p : Slot) (f : ℤ) : Option Special := (s.getf p f).bind s.node

/-- What a step looks up. -/
def accesses (s : TabSys) : TabAct → List Access
  | .trap _ dx => [⟨.sysent, dx⟩]
  | .issig p => if s.p_sig p ≠ 0 then [⟨.u_signal, s.p_sig p⟩] else []
  | .psig p => [⟨.u_signal, s.p_sig p⟩]
  | .ssig _ a => if a ≤ 0 ∨ a ≥ NSIG ∨ a = SIGKIL then [] else [⟨.u_signal, a⟩]
  | .kill .. | .tty .. | .epipe .. | .mknod .. | .ifree .. => []
  | .open p i =>
    ofileAccess ++
      match s.ufalloc p, s.node i with
      | some f, some x =>
        -- On failure the descriptor is cleared again.
        ⟨.u_ofile, f⟩ :: if Special.enxio x then [⟨.u_ofile, f⟩] else [Special.access x]
      | some f, none => [⟨.u_ofile, f⟩]
      | none, _ => []
  | .rdwr p f => getfAccess f ++ ((s.special p f).map Special.rdwrAccess).getD []
  | .seek _ f => getfAccess f
  | .sgtty p f =>
    getfAccess f ++
      match s.special p f with
      | some x => if x.chr then [Special.access x] else []
      | none => []
  | .close p f last =>
    getfAccess f ++
      match s.getf p f with
      | some _ =>
        ⟨.u_ofile, f⟩ :: if last then ((s.special p f).map fun x => [Special.access x]).getD [] else []
      | none => []
  | .dup p f => getfAccess f ++ ofileAccess ++ (s.ufalloc p).toList.map fun i => ⟨.u_ofile, i⟩
  | .fork .. => ofileAccess
  | .exit p =>
    ofileAccess ++ descriptors.flatMap fun f =>
      ((s.special p f).map fun x => [Special.access x]).getD []
  | .smount i go =>
    if go then ((s.getmdev i).map fun d => ⟨.bdevsw, major d⟩ :: breadAccess d).getD [] else []
  | .sumount i =>
    match s.getmdev i with
    | some d => if s.mounted d then [⟨.bdevsw, major d⟩] else []
    | none => []
  | .fsio d => if s.mounted d then breadAccess d else []

/-- `psignal` for a set of processes. -/
def post (s : TabSys) (sel : Slot → Bool) (sig : ℤ) : TabSys :=
  if sig ≥ NSIG then s
  else { s with p_sig := fun p => if sel p ∧ s.p_sig p ≠ SIGKIL then toChar sig else s.p_sig p }

/-- The inode is in no open file. -/
def unused (s : TabSys) (i : ℕ) : Prop := ∀ p, ∀ f ∈ descriptors, s.u_ofile p f ≠ some i

/-- What a step stores. -/
def next (s : TabSys) : TabAct → TabSys
  | .psig p => { s with p_sig := update s.p_sig p 0 }
  | .ssig p a =>
    -- an ignored number, or one that cannot be caught: nothing is written
    if a ≤ 0 ∨ a ≥ NSIG ∨ a = SIGKIL then s
    else { s with p_sig := if s.p_sig p = a then update s.p_sig p 0 else s.p_sig }
  | .kill sel sig => s.post sel sig
  | .tty sel quit => s.post sel (if quit then SIGQIT else SIGINT)
  | .epipe p => s.post (fun q => q = p) SIGPIPE
  | .mknod i x => { s with node := update s.node i (some x) }
  | .ifree i => { s with node := update s.node i none }
  | .open p i =>
    -- a free descriptor; a device outside the switch is refused
    match s.ufalloc p with
    | some f =>
      if (s.node i).any Special.enxio then s
      else { s with u_ofile := update s.u_ofile p (update (s.u_ofile p) f (some i)) }
    | none => s
  | .close p f _ =>
    -- only an open descriptor is closed
    if (s.getf p f).isSome then
      { s with u_ofile := update s.u_ofile p (update (s.u_ofile p) f none) }
    else s
  | .dup p f =>
    match s.getf p f, s.ufalloc p with
    | some i, some g => { s with u_ofile := update s.u_ofile p (update (s.u_ofile p) g (some i)) }
    | _, _ => s
  | .fork p c => { s with u_ofile := update s.u_ofile c (s.u_ofile p) }
  | .exit p => { s with u_ofile := update s.u_ofile p fun _ => none }
  -- both tests of `getmdev` precede the store
  | .smount i go =>
    match s.getmdev i with
    | some d => if go then { s with mounted := update s.mounted d true } else s
    | none => s
  | .sumount i =>
    match s.getmdev i with
    | some d => { s with mounted := update s.mounted d false }
    | none => s
  -- no table is written by these
  | .trap .. | .issig .. | .rdwr .. | .seek .. | .sgtty .. | .fsio .. => s

/-- Inodes are made and freed only while nobody has them open. -/
def Possible (s : TabSys) : TabAct → Prop
  | .mknod i _ | .ifree i => s.unused i
  | _ => True

instance (s : TabSys) (i : ℕ) : Decidable (s.unused i) :=
  inferInstanceAs (Decidable (∀ p, ∀ f ∈ descriptors, s.u_ofile p f ≠ some i))

instance (s : TabSys) : (a : TabAct) → Decidable (s.Possible a)
  | .mknod i _ | .ifree i => inferInstanceAs (Decidable (s.unused i))
  | .trap .. | .issig .. | .psig .. | .ssig .. | .kill .. | .tty .. | .epipe .. | .open .. | .rdwr .. |
    .seek .. | .sgtty .. | .close .. | .dup .. | .fork .. | .exit .. | .smount .. | .sumount .. |
    .fsio .. => isTrue trivial

def step (s : TabSys) (a : TabAct) : Option TabSys :=
  if s.Possible a then some (s.next a) else none

/-! ## When the indices are in bounds -/

/-- The numbers that a step brings in are good: a system call number below 64, a signal number that is
dropped or is a signal, and no special file with a negative number that is opened or mounted. -/
def Ok (s : TabSys) : TabAct → Prop
  | .trap _ dx => 0 ≤ dx ∧ dx < 64
  | .kill sel sig =>
    sig < NSIG → (∃ p, sel p = true ∧ s.p_sig p ≠ SIGKIL) → 0 ≤ toChar sig ∧ toChar sig < NSIG
  | .open p i => (s.ufalloc p).isSome → ∀ x ∈ s.node i, Special.enxio x = false → 0 ≤ x.dev
  | .smount i go => go = true → ∀ d ∈ s.getmdev i, 0 ≤ d
  | _ => True

instance (s : TabSys) : (a : TabAct) → Decidable (s.Ok a)
  | .trap _ dx => inferInstanceAs (Decidable (0 ≤ dx ∧ dx < 64))
  | .kill sel sig => inferInstanceAs (Decidable
      (sig < NSIG → (∃ p, sel p = true ∧ s.p_sig p ≠ SIGKIL) → 0 ≤ toChar sig ∧ toChar sig < NSIG))
  | .open p i => inferInstanceAs (Decidable
      ((s.ufalloc p).isSome → ∀ x ∈ s.node i, Special.enxio x = false → 0 ≤ x.dev))
  | .smount i go => inferInstanceAs (Decidable (go = true → ∀ d ∈ s.getmdev i, 0 ≤ d))
  | .issig .. | .psig .. | .ssig .. | .tty .. | .epipe .. | .mknod .. | .ifree .. | .rdwr .. |
    .seek .. | .sgtty .. | .close .. | .dup .. | .fork .. | .exit .. | .sumount .. | .fsio .. =>
    isTrue trivial

/-- The stored numbers. -/
structure Inv (s : TabSys) : Prop where
  sig : ∀ p, 0 ≤ s.p_sig p ∧ s.p_sig p < NSIG
  file : ∀ p, ∀ f ∈ descriptors, ∀ i, s.u_ofile p f = some i → ∀ x ∈ s.node i, (Special.access x).InBounds
  mounted : ∀ d, s.mounted d = true → 0 ≤ d ∧ major d < KTable.nblkdev

variable {s s' : TabSys}

theorem major_nonneg {dev : ℤ} : 0 ≤ major dev ↔ 0 ≤ dev := by
  unfold major
  omega

/-- What `openi` lets through, unless the number is negative. -/
theorem access_inBounds {x : Special} (hpos : 0 ≤ x.dev) (hx : Special.enxio x = false) :
    (Special.access x).InBounds :=
  ⟨major_nonneg.mpr hpos, lt_of_not_ge (of_decide_eq_false hx)⟩

theorem mem_descriptors {f : ℤ} : f ∈ descriptors ↔ 0 ≤ f ∧ f < NOFILE := by
  constructor
  · intro h
    obtain ⟨n, hn, rfl⟩ := List.mem_map.mp h
    exact ⟨Int.natCast_nonneg n, Int.ofNat_lt.mpr (List.mem_range.mp hn)⟩
  · rintro ⟨hpos, hlt⟩
    refine List.mem_map.mpr ⟨f.toNat, List.mem_range.mpr ?_, Int.toNat_of_nonneg hpos⟩
    omega

theorem ofileAccess_inBounds : ∀ x ∈ ofileAccess, x.InBounds := by
  intro x hx
  obtain ⟨f, hf, rfl⟩ := List.mem_map.mp hx
  exact mem_descriptors.mp hf

theorem getfAccess_inBounds (f : ℤ) : ∀ x ∈ getfAccess f, x.InBounds := by
  intro x hx
  unfold getfAccess at hx
  split at hx
  · cases hx
  · next hf =>
    obtain rfl := List.mem_singleton.mp hx
    simp only [not_or, not_lt, not_le] at hf
    exact ⟨hf.1, by have := hf.2; simpa [KTable.size] using this⟩

/-- `getf` finds an open descriptor. -/
theorem getf_eq_some {p : Slot} {f : ℤ} {i : ℕ} (h : s.getf p f = some i) :
    f ∈ descriptors ∧ s.u_ofile p f = some i := by
  unfold getf at h
  split at h
  · cases h
  · next hf =>
    refine ⟨mem_descriptors.mpr ?_, h⟩
    simpa using hf

theorem ufalloc_mem {p : Slot} {f : ℤ} (h : s.ufalloc p = some f) : f ∈ descriptors :=
  List.mem_of_find?_eq_some h

/-- A special file that is open has a device in its table. -/
theorem Inv.special (h : s.Inv) {p : Slot} {f : ℤ} {x : Special} (hx : s.special p f = some x) :
    (Special.access x).InBounds := by
  obtain ⟨i, hi, hx⟩ := Option.bind_eq_some_iff.mp hx
  obtain ⟨hf, hi⟩ := getf_eq_some hi
  exact h.file p f hf i hi x hx

theorem breadAccess_inBounds {d : ℤ} (hd : 0 ≤ d) : ∀ x ∈ breadAccess d, x.InBounds := by
  intro x hx
  unfold breadAccess at hx
  split at hx
  · cases hx
  · next hmaj =>
    have hx : x = ⟨.bdevsw, major d⟩ := by
      rw [if_neg (by omega)] at hx
      simpa using hx
    rw [hx]
    exact ⟨major_nonneg.mpr hd, lt_of_not_ge hmaj⟩

/-- Reading and writing an open special file stays in its table. -/
theorem rdwrAccess_inBounds {x : Special} (hx : (Special.access x).InBounds) :
    ∀ y ∈ Special.rdwrAccess x, y.InBounds := by
  intro y hy
  unfold Special.rdwrAccess at hy
  split at hy
  · rw [List.mem_singleton.mp hy]
    exact hx
  · next hchr =>
    have hpos : 0 ≤ x.dev := major_nonneg.mp hx.1
    rcases List.mem_cons.mp hy with rfl | hy
    · simpa [Special.access, Special.switch, hchr] using hx
    · exact breadAccess_inBounds hpos y hy

/-- `getmdev` checks the number of the device. -/
theorem getmdev_lt {i : ℕ} {d : ℤ} (h : s.getmdev i = some d) : major d < KTable.nblkdev := by
  unfold getmdev at h
  split at h
  · split at h
    · cases h
    · split at h
      · cases h
      · next hmaj =>
        obtain rfl := Option.some.inj h
        exact lt_of_not_ge hmaj
  · cases h

/-- A step that meets the condition stays in all tables. -/
theorem Inv.accesses (h : s.Inv) {a : TabAct} (hok : s.Ok a) : ∀ x ∈ s.accesses a, x.InBounds := by
  have hsig : ∀ p, (⟨.u_signal, s.p_sig p⟩ : Access).InBounds := h.sig
  -- What is behind a descriptor has been opened.
  have hfile : ∀ p f, ∀ x ∈ ((s.special p f).map fun x => [Special.access x]).getD [],
      x.InBounds := by
    intro p f x hx
    cases hsp : s.special p f with
    | none => simp [hsp] at hx
    | some y =>
      obtain rfl : x = Special.access y := by simpa [hsp] using hx
      exact h.special hsp
  cases a with
  | trap p dx =>
    intro x hx
    rw [List.mem_singleton.mp hx]
    exact hok
  | issig p =>
    intro x hx
    simp only [TabSys.accesses] at hx
    split at hx
    · rw [List.mem_singleton.mp hx]
      exact hsig p
    · cases hx
  | psig p =>
    intro x hx
    rw [List.mem_singleton.mp hx]
    exact hsig p
  | ssig p a =>
    intro x hx
    simp only [TabSys.accesses] at hx
    split at hx
    · cases hx
    · next ha =>
      rw [List.mem_singleton.mp hx]
      simp only [not_or, not_le] at ha
      exact ⟨ha.1.le, ha.2.1⟩
  | kill | tty | epipe | mknod | ifree => intro x hx; cases hx
  | «open» p i =>
    intro x hx
    rcases List.mem_append.mp hx with hx | hx
    · exact ofileAccess_inBounds x hx
    split at hx
    · next f y hf hy =>
      rcases List.mem_cons.mp hx with rfl | hx
      · exact mem_descriptors.mp (ufalloc_mem hf)
      split at hx
      · rw [List.mem_singleton.mp hx]
        exact mem_descriptors.mp (ufalloc_mem hf)
      · next hmaj =>
        rw [List.mem_singleton.mp hx]
        have hpos := hok (by simp [hf]) y (by simp [hy]) (by simpa using hmaj)
        exact access_inBounds hpos (by simpa using hmaj)
    · next f hf hy =>
      rw [List.mem_singleton.mp hx]
      exact mem_descriptors.mp (ufalloc_mem hf)
    · cases hx
  | rdwr p f =>
    intro x hx
    rcases List.mem_append.mp hx with hx | hx
    · exact getfAccess_inBounds f x hx
    · cases hsp : s.special p f with
      | none => simp [hsp] at hx
      | some y =>
        rw [hsp] at hx
        exact rdwrAccess_inBounds (h.special hsp) x hx
  | seek p f => exact getfAccess_inBounds f
  | sgtty p f =>
    intro x hx
    rcases List.mem_append.mp hx with hx | hx
    · exact getfAccess_inBounds f x hx
    split at hx
    · next y hy =>
      split at hx
      · rw [List.mem_singleton.mp hx]
        exact h.special hy
      · cases hx
    · cases hx
  | close p f last =>
    intro x hx
    rcases List.mem_append.mp hx with hx | hx
    · exact getfAccess_inBounds f x hx
    split at hx
    · next i hi =>
      rcases List.mem_cons.mp hx with rfl | hx
      · exact mem_descriptors.mp (getf_eq_some hi).1
      split at hx
      · exact hfile p f x hx
      · cases hx
    · cases hx
  | dup p f =>
    intro x hx
    rcases List.mem_append.mp hx with hx | hx
    · rcases List.mem_append.mp hx with hx | hx
      · exact getfAccess_inBounds f x hx
      · exact ofileAccess_inBounds x hx
    · obtain ⟨g, hg, rfl⟩ := List.mem_map.mp hx
      exact mem_descriptors.mp (ufalloc_mem (Option.mem_toList.mp hg))
  | fork p c => exact ofileAccess_inBounds
  | exit p =>
    intro x hx
    rcases List.mem_append.mp hx with hx | hx
    · exact ofileAccess_inBounds x hx
    · obtain ⟨f, -, hx⟩ := List.mem_flatMap.mp hx
      exact hfile p f x hx
  | smount i go =>
    intro x hx
    simp only [TabSys.accesses] at hx
    split at hx
    · next hgo =>
      cases hd : s.getmdev i with
      | none => simp [hd] at hx
      | some d =>
        have hpos := hok hgo d (by simp [hd])
        rw [hd, Option.map_some, Option.getD_some] at hx
        rcases List.mem_cons.mp hx with rfl | hx
        · exact ⟨major_nonneg.mpr hpos, getmdev_lt hd⟩
        · exact breadAccess_inBounds hpos x hx
    · cases hx
  | sumount i =>
    intro x hx
    simp only [TabSys.accesses] at hx
    split at hx
    · next d hd =>
      split at hx
      · next hm =>
        rw [List.mem_singleton.mp hx]
        exact ⟨major_nonneg.mpr (h.mounted d hm).1, (h.mounted d hm).2⟩
      · cases hx
    · cases hx
  | fsio d =>
    intro x hx
    simp only [TabSys.accesses] at hx
    split at hx
    · next hm => exact breadAccess_inBounds (h.mounted d hm).1 x hx
    · cases hx

/-! ## What is stored stays good -/

/-- A signal that `psignal` drops, or one that is a signal. -/
theorem Inv.post (h : s.Inv) {sel : Slot → Bool} {sig : ℤ}
    (hsig : sig < NSIG → (∃ p, sel p = true ∧ s.p_sig p ≠ SIGKIL) →
      0 ≤ toChar sig ∧ toChar sig < NSIG) : (s.post sel sig).Inv := by
  unfold TabSys.post
  split
  · exact h
  · refine ⟨fun p => ?_, h.file, h.mounted⟩
    dsimp only
    split
    · next hp => exact hsig (by omega) ⟨p, hp⟩
    · exact h.sig p

theorem Inv.clear (h : s.Inv) (p : Slot) : ({ s with p_sig := update s.p_sig p 0 } : TabSys).Inv := by
  refine ⟨fun q => ?_, h.file, h.mounted⟩
  rcases eq_or_ne q p with rfl | hq
  · simp [NSIG]
  · simpa only [update_of_ne hq] using h.sig q

/-- A descriptor gets a file that is open already, or that is not special or passes `openi`. -/
theorem Inv.setFile (h : s.Inv) {p : Slot} {f : ℤ} {i : ℕ}
    (hi : ∀ x ∈ s.node i, (Special.access x).InBounds) :
    ({ s with u_ofile := update s.u_ofile p (update (s.u_ofile p) f (some i)) } : TabSys).Inv := by
  refine ⟨h.sig, fun q g hg j hj => ?_, h.mounted⟩
  rcases eq_or_ne q p with rfl | hq
  · simp only [update_self] at hj
    rcases eq_or_ne g f with rfl | hgf
    · rw [update_self] at hj
      obtain rfl := Option.some.inj hj
      exact hi
    · rw [update_of_ne hgf] at hj
      exact h.file q g hg j hj
  · simp only [update_of_ne hq] at hj
    exact h.file q g hg j hj

/-- Descriptors are closed. -/
theorem Inv.dropFiles (h : s.Inv) {p : Slot} {g : ℤ → Option ℕ}
    (hg : ∀ f i, g f = some i → ∃ q, s.u_ofile q f = some i) :
    ({ s with u_ofile := update s.u_ofile p g } : TabSys).Inv := by
  refine ⟨h.sig, fun q f hf i hi => ?_, h.mounted⟩
  rcases eq_or_ne q p with rfl | hq
  · simp only [update_self] at hi
    obtain ⟨q', hi'⟩ := hg f i hi
    exact h.file q' f hf i hi'
  · simp only [update_of_ne hq] at hi
    exact h.file q f hf i hi

/-- An inode is replaced that nobody has open. -/
theorem Inv.setNode (h : s.Inv) {i : ℕ} (hi : s.unused i) (x : Option Special) :
    ({ s with node := update s.node i x } : TabSys).Inv := by
  refine ⟨h.sig, fun p f hf j hj => ?_, h.mounted⟩
  have hji : j ≠ i := fun hji => hi p f hf (hji ▸ hj)
  simp only [update_of_ne hji]
  exact h.file p f hf j hj

/-- Every step keeps the table in order. -/
theorem Inv.next (h : s.Inv) {a : TabAct} (hposs : s.Possible a) (hok : s.Ok a) :
    (s.next a).Inv := by
  cases a with
  | trap | issig | rdwr | seek | sgtty | fsio => exact h
  | psig p => exact h.clear p
  | ssig p a =>
    simp only [TabSys.next]
    split
    · exact h
    · refine ⟨fun q => ?_, h.file, h.mounted⟩
      dsimp only
      split
      · exact (h.clear p).sig q
      · exact h.sig q
  | kill sel sig => exact h.post hok
  | tty sel quit => exact h.post fun _ _ => by cases quit <;> decide
  | epipe p => exact h.post fun _ _ => by decide
  | mknod i x => exact h.setNode hposs (some x)
  | ifree i => exact h.setNode hposs none
  | «open» p i =>
    simp only [TabSys.next]
    split
    · next f hf =>
      split
      · exact h
      · next hany =>
        refine h.setFile fun x hx => ?_
        -- the driver has not refused the device
        have hmaj : Special.enxio x = false := by
          have hx : s.node i = some x := hx
          simpa [hx] using hany
        have hpos := hok (by simp [hf]) x hx hmaj
        exact access_inBounds hpos hmaj
    · exact h
  | close p f last =>
    simp only [TabSys.next]
    split
    · refine h.dropFiles fun g i hi => ?_
      rcases eq_or_ne g f with rfl | hg
      · simp at hi
      · rw [update_of_ne hg] at hi
        exact ⟨p, hi⟩
    · exact h
  | dup p f =>
    simp only [TabSys.next]
    split
    · next i g hi hg =>
      obtain ⟨hf, hi⟩ := getf_eq_some hi
      exact h.setFile (h.file p f hf i hi)
    · exact h
  | fork p c => exact h.dropFiles fun f i hi => ⟨p, hi⟩
  | exit p => exact h.dropFiles fun f i hi => nomatch hi
  | smount i go =>
    simp only [TabSys.next]
    split
    · next d hd =>
      split
      · next hgo =>
        refine ⟨h.sig, h.file, fun e he => ?_⟩
        rcases eq_or_ne e d with rfl | hed
        · exact ⟨hok hgo e (by simp [hd]), getmdev_lt hd⟩
        · exact h.mounted e (by simpa only [update_of_ne hed] using he)
      · exact h
    · exact h
  | sumount i =>
    simp only [TabSys.next]
    split
    · next d hd =>
      refine ⟨h.sig, h.file, fun e he => ?_⟩
      rcases eq_or_ne e d with rfl | hed
      · simp at he
      · exact h.mounted e (by simpa only [update_of_ne hed] using he)
    · exact h

/-! ## The results -/

/-- Nothing is open, nothing is pending, and the root device is mounted. -/
def boot (node : ℕ → Option Special) : TabSys where
  p_sig _ := 0
  node := node
  u_ofile _ _ := none
  mounted d := d = 0

/-- All that a step looks up is there, and so is what the check for signals after it looks up. -/
def Safe (s : TabSys) (a : TabAct) (s' : TabSys) : Prop :=
  (∀ x ∈ s.accesses a, x.InBounds) ∧ ∀ p, ∀ x ∈ s'.accesses (.issig p), x.InBounds

theorem inv_boot (node : ℕ → Option Special) : (boot node).Inv := by
  refine ⟨fun p => ?_, fun p f hf i hi => (nomatch hi), fun d hd => ?_⟩
  · show (0 : ℤ) ≤ 0 ∧ (0 : ℤ) < NSIG
    decide
  · obtain rfl : d = 0 := of_decide_eq_true hd
    decide

/-- A step is taken if it is possible. -/
theorem step_eq_some {a : TabAct} (hs : s.step a = some s') : s.Possible a ∧ s' = s.next a := by
  obtain ⟨hposs, hs⟩ := Option.ite_none_right_eq_some.mp hs
  exact ⟨hposs, (Option.some.inj hs).symm⟩

/-- In every run the numbers in the tables are in bounds. -/
theorem inv_of_reachable {node : ℕ → Option Special} (h : Reachable step Ok (boot node) s) :
    s.Inv := by
  refine h.invariant (inv_boot node) fun s a s' hinv hok hs => ?_
  obtain ⟨hposs, rfl⟩ := step_eq_some hs
  exact hinv.next hposs hok

/-- A number that is no signal is looked up by `issig` of each process that gets it. -/
theorem ok_of_issig_kill {sel : Slot → Bool} {sig : ℤ}
    (h : ∀ p, ∀ x ∈ (s.post sel sig).accesses (.issig p), x.InBounds) : s.Ok (.kill sel sig) := by
  rintro hlt ⟨p, hp⟩
  have hpost : (s.post sel sig).p_sig p = toChar sig := by
    simp only [post, if_neg (not_le.mpr hlt), if_pos hp]
  by_cases hzero : toChar sig = 0
  · rw [hzero]
    decide
  · refine h p ⟨.u_signal, toChar sig⟩ ?_
    simp only [accesses, hpost, if_pos hzero, List.mem_singleton]

/-- In every run in which the numbers that came in so far are good, the next step looks up an index
out of bounds exactly if its own are not. -/
theorem safe_iff_of_reachable {node : ℕ → Option Special} {a : TabAct}
    (h : Reachable step Ok (boot node) s) (hs : s.step a = some s') : s.Safe a s' ↔ s.Ok a := by
  obtain ⟨hposs, rfl⟩ := step_eq_some hs
  have hinv := inv_of_reachable h
  constructor
  · rintro ⟨hacc, hissig⟩
    cases a with
    | trap p dx => exact hacc ⟨.sysent, dx⟩ (List.mem_singleton.mpr rfl)
    | kill sel sig => exact ok_of_issig_kill hissig
    | «open» p i =>
      intro hf x hx henxio
      obtain ⟨f, hf⟩ := Option.isSome_iff_exists.mp hf
      have hx : s.node i = some x := hx
      have hmem : Special.access x ∈ s.accesses (.open p i) := by
        simp [accesses, hf, hx, henxio]
      exact major_nonneg.mp (hacc _ hmem).1
    | smount i go =>
      intro hgo d hd
      have hd : s.getmdev i = some d := hd
      have hmem : (⟨.bdevsw, major d⟩ : Access) ∈ s.accesses (.smount i go) := by
        simp [accesses, hgo, hd]
      exact major_nonneg.mp (hacc _ hmem).1
    | _ => trivial
  · intro hok
    have hnext := hinv.next hposs hok
    exact ⟨hinv.accesses hok, fun p => hnext.accesses (a := .issig p) trivial⟩

/-- A terminal and the disk. -/
def devices : ℕ → Option Special
  | 1 => some ⟨true, 256⟩
  | 2 => some ⟨false, 0⟩
  | _ => none

/-- Process 1 has the terminal and the disk open; its child has been sent a signal. -/
def openAndKill : List TabAct :=
  [.trap 1 5, .open 1 1, .open 1 2, .fork 1 2, .kill (fun p => p = 2) 15, .smount 2 true]

/-- A special file is open, and a signal is posted. -/
theorem safe_iff_of_reachable_openAndKill :
    ∃ s s' : TabSys, (s.Safe (.rdwr 2 1) s' ↔ s.Ok (.rdwr 2 1)) ∧ s.p_sig 2 = 15 ∧
      s.special 2 1 = some ⟨false, 0⟩ := by
  have hrun : (checkedSteps step (fun s a => decide (s.Ok a)) openAndKill (boot devices)).any
      (fun s => s.p_sig 2 = 15 ∧ s.special 2 1 = some ⟨false, 0⟩) = true := by
    decide +kernel
  obtain ⟨s, hs, hend⟩ := (Option.any_eq_true _ _).mp hrun
  have hreach : Reachable step Ok (boot devices) s :=
    Reachable.refl.of_checkedSteps (fun _ _ hcheck => of_decide_eq_true hcheck) hs
  exact ⟨s, s, safe_iff_of_reachable hreach rfl, of_decide_eq_true hend⟩

/-- `trap` checks no number: 64 in `DX` is looked up in `sysent`. -/
theorem not_safe : ¬ ∀ (node : ℕ → Option Special) (s : TabSys),
    Reachable step (fun _ _ => True) (boot node) s → ∀ a s', s.step a = some s' → s.Safe a s' := by
  intro hall
  have hsafe := hall devices (boot devices) .refl (.trap 1 64) (boot devices) rfl
  have hlt : (64 : ℤ) < 64 := (hsafe.1 ⟨.sysent, 64⟩ (List.mem_singleton.mpr rfl)).2
  exact lt_irrefl _ hlt

end TabSys

end UnixV6
