import UnixV6.Tools.MkfsFrame

/-!
# Invariants of the tree that `cfile` makes

The recursion of `cfile` gives a number to every file and writes the inode when the file is made.
`TreeInv E I S` says of an invariant `I D` that every function of `mkfs` keeps it; `D` are the
numbers whose inodes have not been written yet. Then `cfile` keeps it, however deep the tree is.
-/

namespace UnixV6.Mkfs

variable {E : Env}

/-! ## The inode of a file that is made -/

/-- The inode numbered `n` before its file is made. -/
structure Bare (n : ℕ) (ip : Inode) : Prop where
  number : ip.i_number = BitVec.ofNat 16 n
  size : ip.i_size0 = 0 ∧ ip.i_size1 = 0
  small : ip.i_mode &&& ILARG = 0

/-- Setting the link count leaves an inode bare. -/
theorem Bare.ite {n : ℕ} {ip : Inode} (h : Bare n ip) {c : Prop} [Decidable c]
    (i_nlink : BitVec 8) : Bare n (if c then { ip with i_nlink } else ip) := by
  split
  · exact ⟨h.number, h.size, h.small⟩
  · exact h

/-- `gmode` never answers with the large-file bit. -/
theorem gmode_spec (c : Byte) {ms : List (Byte × BitVec 16)}
    (hms : ms.Forall fun x => x.2 &&& ILARG = 0) :
    Triple (fun _ => True) (gmode c ms) (fun m _ => m &&& ILARG = 0) fun _ => True := by
  unfold gmode
  cases hm : ms.lookup c with
  | none => exact .ite (fun _ => .pure fun _ _ => rfl) fun _ => .throw fun _ _ => trivial
  | some m =>
    obtain ⟨l₁, l₂, rfl, -⟩ := List.lookup_eq_some_iff.mp hm
    exact .pure fun _ _ => List.forall_iff_forall_mem.mp hms (c, m) (by simp)

/-- A mode digit is an octal digit. -/
theorem digit_spec (c : Byte) :
    Triple (fun _ => True) (digit c) (fun d _ => ∃ k < 8, d = BitVec.ofNat 16 k) fun _ => True := by
  refine .ite (fun _ => .throw fun _ _ => trivial) fun hc => .pure fun _ _ => ?_
  rw [not_or] at hc
  have h₁ := BitVec.not_lt.mp hc.1
  have h₂ := BitVec.not_lt.mp hc.2
  exact ⟨c.toNat - 48, by bv_omega, by bv_omega⟩

/-- Octal digits stay clear of the large-file bit. -/
theorem digit_small {k : ℕ} (hk : k < 8) :
    BitVec.ofNat 16 k <<< 6 &&& ILARG = 0 ∧ BitVec.ofNat 16 k <<< 3 &&& ILARG = 0 ∧
      BitVec.ofNat 16 k &&& ILARG = 0 := by
  revert k
  decide

/-- No mode has the bit of a large file. -/
theorem mode_spec : Triple (fun _ => True) mode (fun m _ => m &&& ILARG = 0) fun _ => True := by
  have hchar : ∀ i, Triple (fun _ => True) (char i) (fun _ _ => True) fun _ => True := fun _ => .any
  refine (hchar 0).bind fun c => (gmode_spec c (by decide)).bind_value fun fmt hfmt => ?_
  refine (hchar 1).bind fun c => (gmode_spec c (by decide)).bind_value fun suid hsuid => ?_
  refine (hchar 2).bind fun c => (gmode_spec c (by decide)).bind_value fun sgid hsgid => ?_
  refine (hchar 3).bind fun c => (digit_spec c).bind_value fun d3 hd3 => ?_
  refine (hchar 4).bind fun c => (digit_spec c).bind_value fun d4 hd4 => ?_
  refine (hchar 5).bind fun c => (digit_spec c).bind_value fun d5 hd5 => .pure fun _ _ => ?_
  obtain ⟨k3, h3, rfl⟩ := hd3
  obtain ⟨k4, h4, rfl⟩ := hd4
  obtain ⟨k5, h5, rfl⟩ := hd5
  simp only [BitVec.and_or_distrib_right, hfmt, hsuid, hsgid, (digit_small h3).1,
    (digit_small h4).2.1, (digit_small h5).2.2]
  rfl

/-- The number of an inode does not change while its file is made. -/
theorem i_number_copyBlocks (css : List (List Byte)) (ip : Inode) (b : Blocks) :
    Triple (fun _ => True) (copyBlocks E css ip b) (fun r _ => r.1.i_number = ip.i_number)
      fun _ => True := by
  induction css generalizing ip b with
  | nil => exact .pure fun _ _ => rfl
  | cons cs css ih =>
    exact Triple.any.bind fun b => ih _ b

/-- The addresses stored at the end leave the inode number alone. -/
theorem i_number_addresses (ip : Inode) (b : Blocks) :
    Triple (fun _ => True) (addresses E ip b) (fun ip' _ => ip'.i_number = ip.i_number)
      fun _ => True := by
  refine Triple.any.bind fun b => .ite (fun _ => ?_) fun _ => .pure fun _ _ => rfl
  exact Triple.any.bind fun dbc => Triple.any.bind fun _ => .pure fun _ _ => rfl

/-! ## The recursion -/

/-- Every function keeps the invariant `I`, or stops with `S`. -/
structure TreeInv (E : Env) (I : Set ℕ → St → Prop) (S : St → Prop) : Prop where
  stop : ∀ D s, I D s → S s
  noInput : ∀ D s s', s'.noInput = s.noInput → I D s → I D s'
  entry : ∀ D ino str b, Triple (I D) (entry E ino str b) (fun _ => I D) S
  addresses : ∀ D ip b, Triple (I D) (addresses E ip b) (fun _ => I D) S
  nextIno : ∀ D, Triple (I D) nextIno (fun n s => I (insert n D) s ∧ n ∉ D) S
  place : ∀ D n ip, n ∉ D → ip.i_number = BitVec.ofNat 16 n →
    Triple (I (insert n D)) (place E n ip) (fun _ => I D) S
  regular : ∀ D fuel n ip, n ∉ D → Bare n ip →
    Triple (I (insert n D)) (regular E fuel n ip) (fun _ => I D) S

namespace TreeInv

variable {I : Set ℕ → St → Prop} {S : St → Prop} {D : Set ℕ}

/-- A function that only reads. -/
theorem keeps {α : Type} {m : M α} (h : TreeInv E I S) (hm : Keeps St.noInput m) :
    Triple (I D) m (fun _ => I D) S :=
  (Triple.of_moves hm fun s s' hs hI => h.noInput D s s' hs hI).stop fun s hI => h.stop D s hI

/-- The head of an entry takes a number not in use. -/
theorem header (h : TreeInv E I S) (fuel : ℕ) :
    Triple (I D) (header E fuel)
      (fun r s => I (insert r.1 D) s ∧ r.1 ∉ D ∧ Bare r.1 r.2) S := by
  refine (h.keeps (keeps_getstr fuel)).bind fun _ => ?_
  refine ((h.keeps ends_mode.keeps).and mode_spec).bind fun i_mode => .given fun hmode => ?_
  refine (h.keeps (keeps_getnum fuel)).bind fun i_uid => ?_
  refine (h.keeps (keeps_getnum fuel)).bind fun i_gid => (h.nextIno D).bind fun n => ?_
  exact .pure fun s hs => ⟨hs.1, hs.2, rfl, ⟨rfl, rfl⟩, hmode⟩

/-- The end of `cfile`. -/
theorem finish (h : TreeInv E I S) {n : ℕ} (hn : n ∉ D) {ip : Inode}
    (hip : ip.i_number = BitVec.ofNat 16 n) (b : Blocks) :
    Triple (I (insert n D)) (Mkfs.addresses E ip b >>= Mkfs.place E n) (fun _ => I D) S :=
  ((h.addresses _ ip b).and (i_number_addresses ip b)).bind fun ip' =>
    .given fun hip' => h.place D n ip' hn (hip'.trans hip)

/-- A device entry gives its number back to the invariant. -/
theorem special (h : TreeInv E I S) (fuel : ℕ) {n : ℕ} (hn : n ∉ D) {ip : Inode}
    (hip : ip.i_number = BitVec.ofNat 16 n) :
    Triple (I (insert n D)) (special E fuel n ip) (fun _ => I D) S := by
  refine (h.keeps (keeps_getnum fuel)).bind fun maj => ?_
  refine (h.keeps (keeps_getnum fuel)).bind fun min => ?_
  refine h.finish hn ?_ {}
  exact hip

/-- `rec` keeps the invariant, and gives the inode back with its number. -/
def Entries (I : Set ℕ → St → Prop) (S : St → Prop) (rec : Inode → M Inode) : Prop :=
  ∀ (D : Set ℕ) (ip : Inode), Triple (I D) (rec ip)
    (fun ip' s => I D s ∧ ip'.i_number = ip.i_number) S

/-- The entries of a directory keep the invariant if each of them does. -/
theorem dirents (h : TreeInv E I S) {rec : Inode → M Inode} (hrec : Entries I S rec) (fuel : ℕ)
    (ip : Inode) (b : Blocks) : Triple (I D) (dirents E rec fuel ip b)
      (fun r s => I D s ∧ r.1.i_number = ip.i_number) S := by
  induction fuel generalizing ip b with
  | zero => exact .throw fun s hs => h.stop D s hs
  | succ fuel ih =>
    refine (h.keeps (keeps_getstr _)).bind fun _ => Triple.get_self.bind fun s => ?_
    refine .ite (fun _ => .pure fun s hs => ⟨hs, rfl⟩) fun _ => (h.entry D _ _ b).bind fun b => ?_
    refine (hrec D _).bind fun ip' => .given fun hip' => ?_
    exact (ih ip' b).post fun r s hr => ⟨hr.1, hr.2.trans hip'⟩

/-- A directory gives its number back once its entries are done. -/
theorem directory (h : TreeInv E I S) {rec : Inode → M Inode} (hrec : Entries I S rec) (fuel : ℕ)
    {n : ℕ} (hn : n ∉ D) {ip : Inode} (hip : ip.i_number = BitVec.ofNat 16 n) (up : BitVec 16) :
    Triple (I (insert n D)) (directory E fuel n rec up ip) (fun _ => I D) S := by
  refine (h.entry _ up _ {}).bind fun b => (h.entry _ _ _ b).bind fun b => ?_
  refine (h.dirents hrec fuel _ b).bind fun r => .given fun hr => ?_
  exact h.finish hn (hr.trans hip) r.2

/-- `rec` keeps the invariant, and gives the inode of the parent back with its number. -/
def Files (I : Set ℕ → St → Prop) (S : St → Prop) (rec : Option Inode → M (Option Inode)) : Prop :=
  ∀ (D : Set ℕ) (par : Option Inode), Triple (I D) (rec par)
    (fun par' s => I D s ∧ par'.map (·.i_number) = par.map (·.i_number)) S

/-- An entry keeps the invariant if the entries below it do. -/
theorem cfileWith (h : TreeInv E I S) {rec : Option Inode → M (Option Inode)}
    (hrec : Files I S rec) (fuel : ℕ) : Files I S (cfileWith E fuel rec) := by
  intro D par
  refine (h.header _).bind fun r => .given fun ⟨hn, hr⟩ => ?_
  have hbare : Bare r.1 (if par.isNone then { r.2 with i_nlink := 0 } else r.2) := hr.ite 0
  refine .ite (fun _ => ?_) fun _ => .ite (fun _ => ?_) fun _ => ?_
  · exact (h.regular D _ _ _ hn hbare).bind fun _ => .pure fun s hs => ⟨hs, rfl⟩
  · have hrec' : Entries I S (fun ip => (·.getD ip) <$> rec (some ip)) := by
      intro D ip
      dsimp only
      rw [← bind_pure_comp]
      refine (hrec D (some ip)).bind fun par' => .pure fun s hs => ⟨hs.1, ?_⟩
      cases par' with
      | none => rfl
      | some ip' => exact Option.some.inj hs.2
    refine (h.directory hrec' fuel hn ?_ _).bind fun _ => .pure fun s hs => ⟨hs, ?_⟩
    · exact (hbare.ite _).number
    · cases par <;> rfl
  · exact (h.special _ hn hbare.number).bind fun _ => .pure fun s hs => ⟨hs, rfl⟩

/-- The whole tree. -/
theorem cfile (h : TreeInv E I S) (fuel : ℕ) : Files I S (cfile E fuel) := by
  induction fuel with
  | zero => exact fun D par => .throw fun s hs => h.stop D s hs
  | succ fuel ih => exact h.cfileWith ih fuel

end TreeInv

end UnixV6.Mkfs
