import UnixV6.Ken.ExecRead

/-!
# The arguments of `exec`

The packing loops either take the whole vector, or stop at a byte or pointer of ones that they take
for a fault, or stop at the 511th byte. The other loops lay the strings out again at the top of the
stack, so the new program finds every string that was taken, except that a byte `0xFF` is never taken.
-/

open Function

namespace UnixV6

/-! ## The vector -/

/-- A string with its NUL. -/
def CStr (mem : Mem) : BitVec 16 → List Byte → Prop
  | p, [] => mem p = 0
  | p, b :: str => b ≠ 0 ∧ mem p = b ∧ CStr mem (p + 1) str

/-- A vector of strings: pointers from `arg` on, and a zero behind them. -/
def ArgVec (mem : Mem) : BitVec 16 → List (List Byte) → Prop
  | arg, [] => fuword mem arg = 0
  | arg, str :: v => fuword mem arg ≠ 0 ∧ CStr mem (fuword mem arg) str ∧ ArgVec mem (arg + 2) v

/-- The strings side by side, each with its NUL. -/
def strings (v : List (List Byte)) : List Byte := v.flatMap fun str => str ++ [0]

/-- Behind `nc` bytes, no more than 510, a byte of ones comes in the string, or in what is taken for
it. -/
inductive ByteRefused (mem : Mem) : BitVec 16 → ℕ → Prop
  | here {ap nc} : nc ≤ 510 → mem ap = 0xff → ByteRefused mem ap nc
  | next {ap nc} : mem ap ≠ 0 → ByteRefused mem (ap + 1) (nc + 1) → ByteRefused mem ap nc

/-- Among the first 511 bytes of the vector is a byte of ones, or one of its pointers is all ones. -/
inductive VecRefused (mem : Mem) : BitVec 16 → ℕ → Prop
  | pointer {arg nc} : nc ≤ 510 → fuword mem arg = 0xffff → VecRefused mem arg nc
  | byte {arg nc} : fuword mem arg ≠ 0 → ByteRefused mem (fuword mem arg) nc → VecRefused mem arg nc
  | next {arg nc str} : fuword mem arg ≠ 0 → CStr mem (fuword mem arg) str →
      VecRefused mem (arg + 2) (nc + str.length + 1) → VecRefused mem arg nc

variable {mem : Mem}

/-- Each string is followed by a NUL. -/
theorem strings_cons (str : List Byte) (v : List (List Byte)) :
    strings (str :: v) = str ++ 0 :: strings v := by
  simp [strings]

/-- Each string takes a byte more than its length. -/
theorem length_strings_cons (str : List Byte) (v : List (List Byte)) :
    (strings (str :: v)).length = str.length + 1 + (strings v).length := by
  rw [strings_cons, List.length_append, List.length_cons]
  omega

/-- There is at most one string at an address. -/
theorem CStr.unique {p : BitVec 16} {str str' : List Byte} (h : CStr mem p str)
    (h' : CStr mem p str') : str = str' := by
  induction str generalizing p str' with
  | nil =>
    cases str' with
    | nil => rfl
    | cons b str' => exact absurd (h'.2.1.symm.trans h) h'.1
  | cons b str ih =>
    cases str' with
    | nil => exact absurd (h.2.1.symm.trans h') h.1
    | cons b' str' =>
      have hb : b = b' := h.2.1.symm.trans h'.2.1
      rw [hb, ih h.2.2 h'.2.2]

theorem ByteRefused.le {ap : BitVec 16} {nc : ℕ} (h : ByteRefused mem ap nc) : nc ≤ 510 := by
  induction h with
  | here hle _ => exact hle
  | next _ _ ih => omega

theorem VecRefused.le {arg : BitVec 16} {nc : ℕ} (h : VecRefused mem arg nc) : nc ≤ 510 := by
  induction h with
  | pointer hle _ => exact hle
  | byte _ hb => exact hb.le
  | next _ _ _ ih => omega

/-! ## Packing -/

/-- `fubyte` returns -1 for the byte 0377, as it does for an error. -/
theorem fubyte_eq_neg_one (mem : Mem) (a : BitVec 16) : fubyte mem a = -1 ↔ mem a = 0xff := by
  have h : ∀ b : Byte, b.signExtend 16 = -1 ↔ b = 0xff := by decide
  exact h (mem a)

theorem fubyte_eq_zero (mem : Mem) (a : BitVec 16) : fubyte mem a = 0 ↔ mem a = 0 := by
  have h : ∀ b : Byte, b.signExtend 16 = 0 ↔ b = 0 := by decide
  exact h (mem a)

theorem setWidth_fubyte (mem : Mem) (a : BitVec 16) : (fubyte mem a).setWidth 8 = mem a := by
  have h : ∀ b : Byte, (b.signExtend 16).setWidth 8 = b := by decide
  exact h (mem a)

/-- What becomes of a string behind `packed`. -/
theorem packString_cases (mem : Mem) (n : ℕ) (ap : BitVec 16) (packed : List Byte)
    (hlen : packed.length ≤ 510) (hn : 511 ≤ n + packed.length) :
    (∃ str, CStr mem ap str ∧ packed.length + str.length + 1 ≤ 510 ∧
      packString mem n ap packed = .ok (packed ++ str ++ [0]) ∧
      ¬ ByteRefused mem ap packed.length) ∨
    (packString mem n ap packed = .error 0 ∧ ByteRefused mem ap packed.length) ∨
    (packString mem n ap packed = .error E2BIG ∧ ¬ ByteRefused mem ap packed.length ∧
      ∀ str, CStr mem ap str → 510 < packed.length + str.length + 1) := by
  -- induction on the room left; each turn copies one byte
  induction n generalizing ap packed with
  | zero => omega
  | succ n ih =>
    unfold packString
    simp only [fubyte_eq_neg_one, fubyte_eq_zero, setWidth_fubyte, List.length_append,
      List.length_singleton]
    split_ifs with hones hbig hzero
    · exact .inr (.inl ⟨rfl, .here hlen hones⟩)
    · -- The 511th byte.
      refine .inr (.inr ⟨rfl, fun h => ?_, fun str _ => by omega⟩)
      cases h with
      | here _ h => exact hones h
      | next _ h =>
        have hle := h.le
        omega
    -- the byte is the string's end
    · refine .inl ⟨[], hzero, by simpa using hbig, by rw [hzero, List.append_nil], fun h => ?_⟩
      cases h with
      | here _ h => exact hones h
      | next h _ => exact h hzero
    · have hlen' : (packed ++ [mem ap]).length = packed.length + 1 := by simp
      -- a refusal further on is a refusal of the rest
      have hrefused : ByteRefused mem ap packed.length →
          ByteRefused mem (ap + 1) (packed.length + 1) := by
        intro h
        cases h with
        | here _ h => exact absurd h hones
        | next _ h => exact h
      have hcases := ih (ap + 1) (packed ++ [mem ap]) (by omega) (by omega)
      rw [hlen'] at hcases
      -- the rest of the string, in its three cases
      obtain ⟨str, hstr, hle, heq, hno⟩ | ⟨heq, hyes⟩ | ⟨heq, hno, hall⟩ := hcases
      · refine .inl ⟨mem ap :: str, ⟨hzero, rfl, hstr⟩, ?_, ?_, fun h => hno (hrefused h)⟩
        · rw [List.length_cons]
          omega
        · rw [heq]
          simp
      · exact .inr (.inl ⟨heq, .next hzero hyes⟩)
      · refine .inr (.inr ⟨heq, fun h => hno (hrefused h), fun str hstr => ?_⟩)
        cases str with
        | nil => exact absurd hstr hzero
        | cons b str =>
          have hlt := hall str hstr.2.2
          rw [List.length_cons]
          omega

/-- What becomes of the vector. -/
theorem packArgs_cases (mem : Mem) (n : ℕ) (arg : BitVec 16) (na : ℕ) (packed : List Byte)
    (hlen : packed.length ≤ 510) (hn : 511 ≤ n + packed.length) :
    (∃ v, ArgVec mem arg v ∧ packed.length + (strings v).length ≤ 510 ∧
      packArgs mem n arg na packed = .ok (na + v.length, packed ++ strings v) ∧
      ¬ VecRefused mem arg packed.length) ∨
    (packArgs mem n arg na packed = .error 0 ∧ VecRefused mem arg packed.length) ∨
    (packArgs mem n arg na packed = .error E2BIG ∧ ¬ VecRefused mem arg packed.length ∧
      ∀ v, ArgVec mem arg v → 510 < packed.length + (strings v).length) := by
  -- induction on the room left; each turn copies one string
  induction n generalizing arg na packed with
  | zero => omega
  | succ n ih =>
    unfold packArgs
    dsimp only
    split_ifs with hzero hones
    -- the null pointer ends the vector
    · refine .inl ⟨[], hzero, by simpa [strings] using hlen, by simp [strings], fun h => ?_⟩
      cases h with
      | pointer _ h => exact absurd (hzero.symm.trans h) (by decide)
      | byte h _ => exact h hzero
      | next h _ _ => exact h hzero
    · exact .inr (.inl ⟨rfl, .pointer hlen hones⟩)
    · -- A vector goes on with the string at the pointer.
      have hrefused : VecRefused mem arg packed.length →
          ByteRefused mem (fuword mem arg) packed.length ∨
            ∃ str, CStr mem (fuword mem arg) str ∧
              VecRefused mem (arg + 2) (packed.length + str.length + 1) := by
        intro h
        cases h with
        | pointer _ h => exact absurd h hones
        | byte _ h => exact .inl h
        | next _ hstr h => exact .inr ⟨_, hstr, h⟩
      -- the string, in its three cases, and then the rest in its three
      obtain ⟨str, hstr, hle, heq, hno⟩ | ⟨heq, hyes⟩ | ⟨heq, hno, hall⟩ :=
        packString_cases mem 511 (fuword mem arg) packed hlen (by omega)
      · simp only [heq]
        -- the string is there: the packed bytes have grown by it and its NUL
        have hlen' : (packed ++ str ++ [0]).length = packed.length + str.length + 1 := by
          rw [List.length_append, List.length_append, List.length_singleton]
        have hrest : VecRefused mem arg packed.length →
            VecRefused mem (arg + 2) (packed.length + str.length + 1) := by
          intro h
          obtain hbyte | ⟨str', hstr', h⟩ := hrefused h
          · exact absurd hbyte hno
          · rwa [hstr.unique hstr']
        have hcases := ih (arg + 2) (na + 1) (packed ++ str ++ [0]) (by omega) (by omega)
        rw [hlen'] at hcases
        obtain ⟨v, hv, hle', heq', hno'⟩ | ⟨heq', hyes'⟩ | ⟨heq', hno', hall'⟩ := hcases
        · refine .inl ⟨str :: v, ⟨hzero, hstr, hv⟩, ?_, ?_, fun h => hno' (hrest h)⟩
          · rw [length_strings_cons]
            omega
          · rw [heq', strings_cons, List.length_cons]
            simp
            omega
        · exact .inr (.inl ⟨heq', .next hzero hstr hyes'⟩)
        · refine .inr (.inr ⟨heq', fun h => hno' (hrest h), fun v hv => ?_⟩)
          cases v with
          | nil => exact absurd hv hzero
          | cons str' v =>
            have hlt := hall' v hv.2.2
            rw [length_strings_cons, ← hstr.unique hv.2.1]
            omega
      -- the string is refused
      · simp only [heq]
        exact .inr (.inl ⟨trivial, .byte hzero hyes⟩)
      -- the string is too long
      · simp only [heq]
        refine .inr (.inr ⟨trivial, fun h => ?_, fun v hv => ?_⟩)
        · obtain hbyte | ⟨str, hstr, h⟩ := hrefused h
          · exact hno hbyte
          · have hlt := hall str hstr
            have hle := h.le
            omega
        · cases v with
          | nil => exact absurd hv hzero
          | cons str v =>
            have hlt := hall str hv.2.1
            rw [length_strings_cons]
            omega

/-! ## Stores -/

/-- Memory after stores. -/
def storeMem (stores : List Store) (mem : Mem) : Mem :=
  stores.foldl (fun mem x => update mem x.1 x.2) mem

/-- All stores are to addresses from `lo` on and below `hi`. -/
def Within (lo hi : ℕ) (stores : List Store) : Prop := ∀ x ∈ stores, lo ≤ x.1.toNat ∧ x.1.toNat < hi

/-- Stores are made in their order. -/
theorem storeMem_append (st st' : List Store) (mem : Mem) :
    storeMem (st ++ st') mem = storeMem st' (storeMem st mem) := List.foldl_append

/-- Stores change only the addresses that they name. -/
theorem storeMem_outside {st : List Store} {a : BitVec 16} (h : ∀ x ∈ st, x.1 ≠ a) :
    storeMem st mem a = mem a := by
  induction st generalizing mem with
  | nil => rfl
  | cons x st ih =>
    show storeMem st (update mem x.1 x.2) a = mem a
    rw [ih fun y hy => h y (List.mem_cons_of_mem x hy)]
    exact update_of_ne (h x List.mem_cons_self).symm _ _

/-- Stores in a range leave everything outside it as it is. -/
theorem Within.outside {st : List Store} {lo hi : ℕ} {a : BitVec 16} (h : Within lo hi st)
    (ha : a.toNat < lo ∨ hi ≤ a.toNat) : storeMem st mem a = mem a := by
  refine storeMem_outside fun x hx heq => ?_
  have hx := h x hx
  rw [heq] at hx
  omega

/-- Stores in a range lie in every larger one. -/
theorem Within.mono {st : List Store} {lo hi lo' hi' : ℕ} (h : Within lo hi st) (hlo : lo' ≤ lo)
    (hhi : hi ≤ hi') : Within lo' hi' st := by
  intro x hx
  have hx := h x hx
  omega

/-- Two groups of stores lie in a range if and only if each does. -/
theorem within_append {st st' : List Store} {lo hi : ℕ} :
    Within lo hi (st ++ st') ↔ Within lo hi st ∧ Within lo hi st' := by
  unfold Within
  simp only [List.mem_append]
  exact ⟨fun h => ⟨fun x hx => h x (.inl hx), fun x hx => h x (.inr hx)⟩,
    fun h x hx => hx.elim (h.1 x) (h.2 x)⟩

/-- A word away from the stores. -/
theorem Within.fuword {st : List Store} {lo hi : ℕ} {a : BitVec 16} (h : Within lo hi st)
    (htop : a.toNat + 1 < 65536) (ha : a.toNat + 2 ≤ lo ∨ hi ≤ a.toNat) :
    fuword (storeMem st mem) a = fuword mem a := by
  have hnext : (a + 1).toNat = a.toNat + 1 := by bv_omega
  unfold UnixV6.fuword
  rw [h.outside (by omega), h.outside (by omega)]

/-- A word that was stored is read back. -/
@[simp]
theorem fuword_suword (mem : Mem) (a : BitVec 16) (w : Word) :
    fuword (storeMem (suword a w) mem) a = w := by
  have hne : a ≠ a + 1 := by bv_omega
  show update (update mem a (lobyte w)) (a + 1) (hibyte w) (a + 1) ++
    update (update mem a (lobyte w)) (a + 1) (hibyte w) a = w
  rw [update_self, update_of_ne hne, update_self, hibyte_append_lobyte]

/-- A word takes two bytes. -/
theorem within_suword {a : BitVec 16} {w : Word} (htop : a.toNat + 1 < 65536) :
    Within a.toNat (a.toNat + 2) (suword a w) := by
  have hnext : (a + 1).toNat = a.toNat + 1 := by bv_omega
  intro x hx
  simp only [suword, List.mem_cons, List.not_mem_nil, or_false] at hx
  obtain rfl | rfl := hx
  · show a.toNat ≤ a.toNat ∧ a.toNat < a.toNat + 2
    omega
  · show a.toNat ≤ (a + 1).toNat ∧ (a + 1).toNat < a.toNat + 2
    omega

/-- Bytes stored one after another. -/
theorem storeMem_bytesAt {base a : BitVec 16} {n : ℕ} {val : ℕ → Byte} (hn : n ≤ 65536) :
    storeMem (bytesAt base n val) mem a =
      if (a - base).toNat < n then val (a - base).toNat else mem a := by
  have h := IoArgs.load_pairs mem (fun i => val i) 0 hn base a
  rw [Nat.zero_add] at h
  rw [← h]
  unfold storeMem
  have hpairs := IoArgs.pairs_stores 0 base n fun i => val i
  simp only [Nat.zero_add] at hpairs
  rw [← hpairs, List.foldl_map]

/-! ## Unpacking -/

/-- The string is the same where the bytes are. -/
theorem CStr.congr {mem' : Mem} {p : BitVec 16} {str : List Byte} (h : CStr mem p str)
    (htop : p.toNat + str.length < 65536)
    (heq : ∀ a : BitVec 16, p.toNat ≤ a.toNat → a.toNat ≤ p.toNat + str.length → mem' a = mem a) :
    CStr mem' p str := by
  induction str generalizing p with
  | nil => exact (heq p le_rfl (Nat.le_add_right _ _)).trans h
  | cons b str ih =>
    rw [List.length_cons] at htop heq
    have hnext : (p + 1).toNat = p.toNat + 1 := by bv_omega
    refine ⟨h.1, (heq p le_rfl (Nat.le_add_right _ _)).trans h.2.1, ih h.2.2 (by omega) ?_⟩
    intro a hlo hhi
    exact heq a (by omega) (by omega)

/-- The stores of a string and its NUL. -/
def strStores (c : BitVec 16) : List Byte → List Store
  | [] => [(c, 0)]
  | b :: str => (c, b) :: strStores (c + 1) str

/-- The loop over a string copies it, with its NUL, and stops behind it. -/
theorem unpackString_eq {str : List Byte} (h : 0 ∉ str) (rest : List Byte) (c : BitVec 16) :
    unpackString (str ++ 0 :: rest) c =
      (strStores c str, rest, c + BitVec.ofNat 16 (str.length + 1)) := by
  induction str generalizing c with
  | nil => rfl
  | cons b str ih =>
    obtain ⟨hb, hstr⟩ := not_or.mp (mt List.mem_cons.mpr h)
    rw [List.cons_append, unpackString, if_neg (Ne.symm hb), ih hstr]
    refine Prod.ext rfl (Prod.ext rfl ?_)
    show c + 1 + BitVec.ofNat 16 (str.length + 1) = c + BitVec.ofNat 16 (str.length + 1 + 1)
    bv_omega

/-- The bytes of a string and its NUL are stored one after another. -/
theorem within_strStores {str : List Byte} {c : BitVec 16} (htop : c.toNat + str.length < 65536) :
    Within c.toNat (c.toNat + str.length + 1) (strStores c str) := by
  induction str generalizing c with
  | nil =>
    intro x hx
    rw [List.mem_singleton.mp hx]
    exact ⟨le_rfl, Nat.lt_succ_self _⟩
  | cons b str ih =>
    rw [List.length_cons] at htop ⊢
    have hnext : (c + 1).toNat = c.toNat + 1 := by bv_omega
    intro x hx
    obtain rfl | hx := List.mem_cons.mp hx
    · show c.toNat ≤ c.toNat ∧ c.toNat < _
      omega
    · have hx := ih (c := c + 1) (by omega) x hx
      omega

/-- A string that was stored is read back. -/
theorem cstr_strStores {str : List Byte} (h : 0 ∉ str) {c : BitVec 16}
    (htop : c.toNat + str.length < 65536) : CStr (storeMem (strStores c str) mem) c str := by
  induction str generalizing c mem with
  | nil => exact update_self _ _ _
  | cons b str ih =>
    rw [List.length_cons] at htop
    obtain ⟨hb, hstr⟩ := not_or.mp (mt List.mem_cons.mpr h)
    have hnext : (c + 1).toNat = c.toNat + 1 := by bv_omega
    refine ⟨Ne.symm hb, ?_, ih hstr (by omega)⟩
    show storeMem (strStores (c + 1) str) (update mem c b) c = b
    rw [(within_strStores (by omega)).outside (by omega), update_self]

/-- A string ends at its first NUL. -/
theorem CStr.zero_notMem {p : BitVec 16} {str : List Byte} (h : CStr mem p str) : 0 ∉ str := by
  induction str generalizing p with
  | nil => exact List.not_mem_nil
  | cons b str ih => exact List.not_mem_cons_of_ne_of_not_mem (Ne.symm h.1) (ih h.2.2)

/-- Pointers from `ap` on to the strings, which lie side by side from `c` on. -/
def Laid (mem : Mem) : BitVec 16 → BitVec 16 → List (List Byte) → Prop
  | _, _, [] => True
  | ap, c, str :: v =>
    fuword mem ap = c ∧ CStr mem c str ∧ Laid mem (ap + 2) (c + BitVec.ofNat 16 (str.length + 1)) v

/-- The stores of the loop are to the pointers and to the strings. -/
theorem mem_unpackArgs {v : List (List Byte)} (hv : ∀ str ∈ v, 0 ∉ str) {rest : List Byte}
    {ap c : BitVec 16} (hap : ap.toNat + 2 * v.length < 65536)
    (hc : c.toNat + (strings v).length < 65536) :
    ∀ x ∈ unpackArgs v.length (strings v ++ rest) ap c,
      (ap.toNat ≤ x.1.toNat ∧ x.1.toNat < ap.toNat + 2 * v.length) ∨
        (c.toNat ≤ x.1.toNat ∧ x.1.toNat < c.toNat + (strings v).length) := by
  -- induction on the vector, with the places of the pointer and the string moving on
  induction v generalizing ap c with
  | nil =>
    intro x hx
    cases hx
  | cons str v ih =>
    obtain ⟨hstr, hv⟩ := List.forall_mem_cons.mp hv
    rw [length_strings_cons] at hc ⊢
    rw [List.length_cons] at hap ⊢
    have hap2 : (ap + 2).toNat = ap.toNat + 2 := by bv_omega
    have hc2 : (c + BitVec.ofNat 16 (str.length + 1)).toNat = c.toNat + str.length + 1 := by bv_omega
    intro x hx
    rw [strings_cons, List.append_assoc, List.cons_append, unpackArgs,
      unpackString_eq hstr] at hx
    simp only [List.mem_append] at hx
    obtain (hx | hx) | hx := hx
    · -- the pointer
      have hx := within_suword (by omega) x hx
      omega
    · -- its string
      have hx := within_strStores (by omega) x hx
      omega
    · -- the arguments behind it
      have hx := ih hv (by omega) (by omega) x hx
      omega

/-- The pointers and the strings that `exec` stores are those of the vector. -/
theorem unpackArgs_laid {v : List (List Byte)} (hv : ∀ str ∈ v, 0 ∉ str) {rest : List Byte}
    {ap c : BitVec 16} (hap : ap.toNat + 2 * v.length ≤ c.toNat)
    (hc : c.toNat + (strings v).length < 65536) :
    Laid (storeMem (unpackArgs v.length (strings v ++ rest) ap c) mem) ap c v := by
  induction v generalizing ap c mem with
  | nil => trivial
  | cons str v ih =>
    obtain ⟨hstr, hv⟩ := List.forall_mem_cons.mp hv
    rw [length_strings_cons] at hc
    rw [List.length_cons] at hap ⊢
    have hap2 : (ap + 2).toNat = ap.toNat + 2 := by bv_omega
    have hap1 : (ap + 1).toNat = ap.toNat + 1 := by bv_omega
    have hc2 : (c + BitVec.ofNat 16 (str.length + 1)).toNat = c.toNat + str.length + 1 := by bv_omega
    rw [strings_cons, List.append_assoc, List.cons_append, unpackArgs, unpackString_eq hstr]
    simp only [storeMem_append]
    -- The stores of the strings behind leave this pointer and this string alone.
    have hout : ∀ {m : Mem} {a : BitVec 16}, (a.toNat < ap.toNat + 2 ∧ ap.toNat ≤ a.toNat) ∨
        (c.toNat ≤ a.toNat ∧ a.toNat ≤ c.toNat + str.length) →
        storeMem (unpackArgs v.length (strings v ++ rest) (ap + 2)
          (c + BitVec.ofNat 16 (str.length + 1))) m a = m a := by
      intro m a ha
      refine storeMem_outside fun x hx heq => ?_
      have hx := mem_unpackArgs hv (by omega) (by omega) x hx
      rw [heq] at hx
      omega
    have hfirst : Within c.toNat (c.toNat + str.length + 1) (strStores c str) :=
      within_strStores (by omega)
    refine ⟨?_, ?_, ih hv (by omega) (by omega)⟩
    · show storeMem _ _ (ap + 1) ++ storeMem _ _ ap = c
      rw [hout (by omega), hout (by omega)]
      show fuword _ ap = c
      rw [hfirst.fuword (by omega) (by omega), fuword_suword]
    · have hcopy : CStr (storeMem (strStores c str) (storeMem (suword ap c) mem)) c str :=
        cstr_strStores hstr (by omega)
      exact hcopy.congr (by omega) fun a hlo hhi => hout (.inr ⟨hlo, hhi⟩)

/-- Pointer `i` is behind the strings before it. -/
theorem Laid.get {v : List (List Byte)} {ap c : BitVec 16} (h : Laid mem ap c v) {i : ℕ}
    (hi : i < v.length) :
    fuword mem (ap + BitVec.ofNat 16 (2 * i)) =
        c + BitVec.ofNat 16 (strings (v.take i)).length ∧
      CStr mem (c + BitVec.ofNat 16 (strings (v.take i)).length) v[i] := by
  induction v generalizing ap c i with
  | nil => exact absurd hi (Nat.not_lt_zero i)
  | cons str v ih =>
    obtain ⟨hptr, hstr, hrest⟩ := h
    cases i with
    | zero =>
      have hap : ap + BitVec.ofNat 16 (2 * 0) = ap := by simp
      have hc : c + BitVec.ofNat 16 (strings ((str :: v).take 0)).length = c := by simp [strings]
      rw [hap, hc]
      exact ⟨hptr, hstr⟩
    | succ i =>
      have hi : i < v.length := Nat.lt_of_succ_lt_succ hi
      have hnext := ih hrest hi
      have hap : ap + BitVec.ofNat 16 (2 * (i + 1)) = ap + 2 + BitVec.ofNat 16 (2 * i) := by bv_omega
      have hc : c + BitVec.ofNat 16 (strings ((str :: v).take (i + 1))).length =
          c + BitVec.ofNat 16 (str.length + 1) + BitVec.ofNat 16 (strings (v.take i)).length := by
        rw [List.take_succ_cons, length_strings_cons, BitVec.ofNat_add, BitVec.add_assoc]
      rw [hap, hc]
      exact hnext

/-- The strings up to the next one take its length and a NUL more. -/
theorem length_strings_take {v : List (List Byte)} {i : ℕ} (hi : i < v.length) :
    (strings (v.take (i + 1))).length = (strings (v.take i)).length + v[i].length + 1 := by
  unfold strings
  rw [List.take_add_one, List.getElem?_eq_getElem hi, List.flatMap_append, List.length_append]
  simp [Nat.add_assoc]

/-- The first strings take no more than all of them. -/
theorem length_strings_take_le (v : List (List Byte)) (i : ℕ) :
    (strings (v.take i)).length ≤ (strings v).length := by
  have h : strings v = strings (v.take i) ++ strings (v.drop i) := by
    unfold strings
    rw [← List.flatMap_append, List.take_append_drop]
  rw [h, List.length_append]
  exact Nat.le_add_right _ _

theorem length_le_strings (v : List (List Byte)) : v.length ≤ (strings v).length := by
  induction v with
  | nil => exact le_rfl
  | cons str v ih =>
    rw [length_strings_cons, List.length_cons]
    omega

/-- The strings are padded to an even length. -/
theorem padded_eq (packed : List Byte) : ∃ rest, padded packed = packed ++ rest ∧
    (padded packed).length = packed.length + packed.length % 2 := by
  unfold padded
  split
  · next h => exact ⟨[0], rfl, by rw [List.length_append, List.length_singleton, h]⟩
  · next h => exact ⟨[], (List.append_nil _).symm, by omega⟩

/-! ## The stack of the new program -/

/-- Pointer `i` of the stack that starts with the frame at `ts`. -/
def argPtr (mem : Mem) (ts : BitVec 16) (i : ℕ) : BitVec 16 :=
  fuword mem (ts + 28 + BitVec.ofNat 16 (2 * i))

/-- Above 24 bytes of registers: `argc`, `argv`, the pointers and the strings, one behind the other
and all below the user's sp at `USTACK - 2`. -/
structure StartStack (mem : Mem) (ts : BitVec 16) (v : List (List Byte)) : Prop where
  argc : fuword mem (ts + 24) = BitVec.ofNat 16 v.length
  argv : fuword mem (ts + 26) = ts + 28
  copy : ∀ i (hi : i < v.length), CStr mem (argPtr mem ts i) v[i]
  above : ∀ i < v.length, ts.toNat + 28 + 2 * v.length ≤ (argPtr mem ts i).toNat
  apart : ∀ i (hi : i + 1 < v.length),
    (argPtr mem ts i).toNat + v[i].length + 1 ≤ (argPtr mem ts (i + 1)).toNat
  below : ∀ i (hi : i < v.length), (argPtr mem ts i).toNat + v[i].length + 1 ≤ USTACK - 2
  room : ts.toNat + 28 + 2 * v.length ≤ USTACK - 2

/-- The first register frame. -/
structure StartFrame (mem : Mem) (ts seg entry : BitVec 16) : Prop where
  ds : fuword mem ts = seg
  es : fuword mem (ts + 2) = seg
  ip : fuword mem (ts + 18) = entry
  cs : fuword mem (ts + 20) = seg + BitVec.ofNat 16 (segOf DSIZE)
  flag : fuword mem (ts + 22) = 0x200

/-- A vector that fits in the buffer, packed. -/
structure Packed (rdy : Ready) (v : List (List Byte)) : Prop where
  na : rdy.na = v.length
  packed : rdy.packed = padded (strings v)
  le : (strings v).length ≤ 510
  nul : ∀ str ∈ v, 0 ∉ str

namespace Packed

variable {rdy : Ready} {v : List (List Byte)}

/-- The layout of the top of the stack. -/
theorem layout (h : Packed rdy v) :
    rdy.ts.toNat + 24 = rdy.ap.toNat ∧ rdy.ap.toNat + 4 + 2 * v.length = rdy.c.toNat ∧
      rdy.c.toNat + (padded (strings v)).length = 0xfbfe ∧
      (padded (strings v)).length ≤ 510 ∧ v.length ≤ 510 := by
  have hle := h.le
  have hna := length_le_strings v
  obtain ⟨-, -, hlen⟩ := padded_eq (strings v)
  have hpad : (padded (strings v)).length ≤ 510 := by omega
  have hc : rdy.c.toNat = 0xfbfe - (padded (strings v)).length := by
    unfold Ready.c USTACK
    rw [h.packed]
    bv_omega
  have hap : rdy.ap.toNat = 0xfbfe - (padded (strings v)).length - 2 * v.length - 4 := by
    unfold Ready.ap USTACK
    rw [h.packed, h.na]
    bv_omega
  have hts : rdy.ts.toNat = rdy.ap.toNat - 24 := by
    unfold Ready.ts
    bv_omega
  omega

/-- The pointers and the strings lie above the stack pointer, and below the top of the stack. -/
theorem mem_unpack (h : Packed rdy v) :
    Within (rdy.ap.toNat + 4) 0xfbfe (unpackArgs rdy.na rdy.packed (rdy.ap + 4) rdy.c) := by
  obtain ⟨hts, hc, htop, hpad, hna⟩ := h.layout
  obtain ⟨rest, heq, hlen⟩ := padded_eq (strings v)
  have hap4 : (rdy.ap + 4).toNat = rdy.ap.toNat + 4 := by bv_omega
  rw [h.na, h.packed, heq]
  intro x hx
  have hx := mem_unpackArgs h.nul (by omega) (by omega) x hx
  omega

/-- The frame lies below the arguments. -/
theorem frame_within (h : Packed rdy v) (page : ℕ) (u_hdr : ℕ → Byte) :
    Within rdy.ts.toNat rdy.ap.toNat (rdy.frame page u_hdr) := by
  obtain ⟨hts, hc, htop, hpad, hna⟩ := h.layout
  have hword : ∀ {k : ℕ} {w : Word}, k ≤ 22 →
      Within rdy.ts.toNat rdy.ap.toNat (suword (rdy.ts + BitVec.ofNat 16 k) w) := by
    intro k w hk
    have hsum : (rdy.ts + BitVec.ofNat 16 k).toNat = rdy.ts.toNat + k := by bv_omega
    exact (within_suword (by omega)).mono (by omega) (by omega)
  unfold Ready.frame
  simp only [within_append]
  exact ⟨⟨⟨⟨by simpa using hword (Nat.zero_le 22), hword (by decide : 2 ≤ 22)⟩,
    hword (by decide : 18 ≤ 22)⟩, hword (by decide : 20 ≤ 22)⟩, hword le_rfl⟩

/-- Everything is stored between the frame and the top of the stack. -/
theorem within_stack (h : Packed rdy v) (page : ℕ) (u_hdr : ℕ → Byte) :
    Within rdy.ts.toNat USTACK (rdy.stack page u_hdr) := by
  obtain ⟨hts, hc, htop, hpad, hna⟩ := h.layout
  have husp : (BitVec.ofNat 16 USTACK - 2 : BitVec 16).toNat = 0xfbfe := by decide
  have hap2 : (rdy.ap + 2).toNat = rdy.ap.toNat + 2 := by bv_omega
  have hword : ∀ {a : BitVec 16} {w : Word}, rdy.ts.toNat ≤ a.toNat → a.toNat + 2 ≤ USTACK →
      Within rdy.ts.toNat USTACK (suword a w) := by
    intro a w hlo hhi
    unfold USTACK at hhi ⊢
    exact (within_suword (by omega)).mono (by omega) (by omega)
  unfold Ready.stack
  simp only [within_append]
  refine ⟨⟨⟨⟨hword ?_ ?_, hword ?_ ?_⟩, hword ?_ ?_⟩, ?_⟩, ?_⟩
  · omega
  · rw [husp]
    decide
  · omega
  · unfold USTACK
    omega
  · omega
  · unfold USTACK
    omega
  · exact h.mem_unpack.mono (by omega) (by decide)
  · exact (h.frame_within page u_hdr).mono le_rfl (by unfold USTACK; omega)

/-- The stack of the new program, whatever was below it. -/
theorem startStack (h : Packed rdy v) (page : ℕ) (u_hdr : ℕ → Byte) (mem : Mem) :
    StartStack (storeMem (rdy.stack page u_hdr) mem) rdy.ts v := by
  obtain ⟨hts, hc, htop, hpad, hna⟩ := h.layout
  obtain ⟨rest, heq, hlen⟩ := padded_eq (strings v)
  have hap24 : rdy.ts + 24 = rdy.ap := by bv_omega
  have hap26 : rdy.ts + 26 = rdy.ap + 2 := by bv_omega
  have hap28 : rdy.ts + 28 = rdy.ap + 4 := by bv_omega
  have hap2 : (rdy.ap + 2).toNat = rdy.ap.toNat + 2 := by bv_omega
  have hap4 : (rdy.ap + 4).toNat = rdy.ap.toNat + 4 := by bv_omega
  have hframe := h.frame_within page u_hdr
  have hunpack := h.mem_unpack
  unfold Ready.stack
  simp only [storeMem_append]
  generalize storeMem (suword (BitVec.ofNat 16 USTACK - 2) rdy.ap) mem = mem
  have hlaid : ∀ m, Laid (storeMem (unpackArgs rdy.na rdy.packed (rdy.ap + 4) rdy.c) m)
      (rdy.ap + 4) rdy.c v := by
    intro m
    rw [h.na, h.packed, heq]
    exact unpackArgs_laid h.nul (by omega) (by omega)
  -- The frame is below the pointers.
  have hptr : ∀ m, ∀ i (hi : i < v.length),
      argPtr (storeMem (rdy.frame page u_hdr) (storeMem
          (unpackArgs rdy.na rdy.packed (rdy.ap + 4) rdy.c) m)) rdy.ts i =
        rdy.c + BitVec.ofNat 16 (strings (v.take i)).length := by
    intro m i hi
    unfold argPtr
    have hadr : (rdy.ap + 4 + BitVec.ofNat 16 (2 * i)).toNat = rdy.ap.toNat + 4 + 2 * i := by bv_omega
    rw [hap28, hframe.fuword (by omega) (by omega)]
    exact ((hlaid m).get hi).1
  have hoff : ∀ i (hi : i < v.length), (rdy.c + BitVec.ofNat 16 (strings (v.take i)).length).toNat =
        rdy.c.toNat + (strings (v.take i)).length ∧
      (strings (v.take i)).length + v[i].length + 1 ≤ (strings v).length := by
    intro i hi
    have hle := length_strings_take_le v (i + 1)
    have hsucc := length_strings_take hi
    refine ⟨by bv_omega, by omega⟩
  refine ⟨?_, ?_, fun i hi => ?_, fun i hi => ?_, fun i hi => ?_, fun i hi => ?_, ?_⟩
  · rw [hap24, hframe.fuword (by omega) (by omega), hunpack.fuword (by omega) (by omega),
      (within_suword (by omega)).fuword (by omega) (by omega), fuword_suword, h.na]
  · rw [hap26, hap28, hframe.fuword (by omega) (by omega), hunpack.fuword (by omega) (by omega),
      fuword_suword]
  · obtain ⟨hval, hsum⟩ := hoff i hi
    rw [hptr _ i hi]
    generalize storeMem (suword (rdy.ap + 2) (rdy.ap + 4)) _ = m
    exact ((hlaid m).get hi).2.congr (by omega) fun a hlo hhi => hframe.outside (by omega)
  · obtain ⟨hval, hsum⟩ := hoff i hi
    rw [hptr _ i hi]
    omega
  · obtain ⟨hval, hsum⟩ := hoff i (by omega)
    obtain ⟨hval', -⟩ := hoff (i + 1) hi
    have hsucc := length_strings_take (v := v) (i := i) (by omega)
    rw [hptr _ i (by omega), hptr _ (i + 1) hi]
    omega
  · obtain ⟨hval, hsum⟩ := hoff i hi
    rw [hptr _ i hi]
    unfold USTACK
    omega
  · unfold USTACK
    omega

/-- The frame itself. -/
theorem startFrame (h : Packed rdy v) (page : ℕ) (u_hdr : ℕ → Byte) (mem : Mem) :
    StartFrame (storeMem (rdy.stack page u_hdr) mem) rdy.ts (BitVec.ofNat 16 (segOf page))
      (hdrWord u_hdr 10) := by
  obtain ⟨hts, hc, htop, hpad, hna⟩ := h.layout
  have h2 : (rdy.ts + 2).toNat = rdy.ts.toNat + 2 := by bv_omega
  have h18 : (rdy.ts + 18).toNat = rdy.ts.toNat + 18 := by bv_omega
  have h20 : (rdy.ts + 20).toNat = rdy.ts.toNat + 20 := by bv_omega
  have h22 : (rdy.ts + 22).toNat = rdy.ts.toNat + 22 := by bv_omega
  have hout : ∀ {m : Mem} {a b : BitVec 16} {w : Word}, a.toNat + 2 ≤ b.toNat →
      b.toNat + 1 < 65536 → fuword (storeMem (suword b w) m) a = fuword m a := by
    intro m a b w hle hlt
    exact (within_suword hlt).fuword (by omega) (.inl hle)
  unfold Ready.stack Ready.frame
  simp only [storeMem_append]
  constructor
  · rw [hout (by omega) (by omega), hout (by omega) (by omega), hout (by omega) (by omega),
      hout (by omega) (by omega), fuword_suword]
  · rw [hout (by omega) (by omega), hout (by omega) (by omega), hout (by omega) (by omega),
      fuword_suword]
  · rw [hout (by omega) (by omega), hout (by omega) (by omega), fuword_suword]
  · rw [hout (by omega) (by omega), fuword_suword]
  · exact fuword_suword _ _ _

end Packed

/-! ## Segments -/

/-- Stores into a process change its segment. -/
theorem segment_storeAll (page : ℕ) (st : List Store) (core : Core) :
    segment (storeAll page st core) page = storeMem st (segment core page) := by
  induction st generalizing core with
  | nil => rfl
  | cons x st ih =>
    show segment (storeAll page st (wrbyte core x.1.toNat (segOf page) x.2)) page = _
    rw [ih]
    show storeMem st _ = storeMem st (update (segment core page) x.1 x.2)
    congr 1
    funext a
    simp only [segment, wrbyte, update_apply, linear]
    have hiff : segOf page * 16 + a.toNat = segOf page * 16 + x.1.toNat ↔ a = x.1 :=
      ⟨fun h => BitVec.eq_of_toNat_eq (by omega), fun h => by rw [h]⟩
    simp only [hiff]

/-- A transfer stores in the 64 Kbytes behind its page. -/
theorem storeAll_outside {page x : ℕ} {st : List Store} {core : Core}
    (h : x < page * 4096 ∨ page * 4096 + 65536 ≤ x) : storeAll page st core x = core x := by
  induction st generalizing core with
  | nil => rfl
  | cons y st ih =>
    show storeAll page st (wrbyte core y.1.toNat (segOf page) y.2) x = core x
    rw [ih]
    refine update_of_ne ?_ _ _
    have hlt := y.1.isLt
    unfold linear segOf
    omega

/-- Stores into a process leave the segments of others alone. -/
theorem segment_storeAll_of_lt {page page' : ℕ} (st : List Store) (core : Core)
    (h : page' + DSIZE ≤ page ∨ page + DSIZE ≤ page') :
    segment (storeAll page st core) page' = segment core page' := by
  funext a
  have hlt := a.isLt
  unfold DSIZE at h
  refine storeAll_outside ?_
  unfold linear segOf
  omega

/-- `clearseg` clears one page. -/
theorem clearseg_apply (dst : ℕ) (core : Core) (x : ℕ) :
    clearseg dst core x = if dst * 4096 ≤ x ∧ x < (dst + 1) * 4096 then 0 else core x := by
  have hseg : linear 0 (segOf dst) = dst * 4096 := by
    unfold linear segOf
    omega
  unfold clearseg
  rw [hseg, Nat.add_mul, Nat.one_mul]

/-- The loop over `clearseg` clears the pages of the process. -/
theorem clearPages_apply (page : ℕ) (core : Core) (x : ℕ) :
    clearPages page core x =
      if page * 4096 ≤ x ∧ x < (page + PSIZE) * 4096 then 0 else core x := by
  have h : ∀ n, (List.range n).foldl (fun core c => clearseg (page + c) core) core x =
      if page * 4096 ≤ x ∧ x < (page + n) * 4096 then 0 else core x := by
    intro n
    induction n with
    | zero => rw [if_neg (by omega)]; rfl
    | succ n ih =>
      rw [List.range_succ, List.foldl_append, List.foldl_cons, List.foldl_nil, clearseg_apply, ih]
      split_ifs <;> first | rfl | omega
  exact h PSIZE

/-- The data segment of the new program. -/
theorem segment_load (rdy : Ready) (f : ExecFile) (s : ExecSys) :
    segment (rdy.load f s).core s.p_addr =
      storeMem (rdy.stack s.p_addr s.u_hdr) (storeMem (rdy.data f s.u_hdr).1 fun _ => 0) := by
  have hcore : (rdy.load f s).core = storeAll s.p_addr (rdy.stack s.p_addr s.u_hdr)
      (storeAll s.p_addr (rdy.data f s.u_hdr).1
        (storeAll (s.p_addr + DSIZE) (rdy.text f s.u_hdr).1 (clearPages s.p_addr s.core))) := by
    simp only [Ready.load]
  rw [hcore, segment_storeAll, segment_storeAll, segment_storeAll_of_lt _ _ (.inl le_rfl)]
  congr 2
  funext a
  have hlt := a.isLt
  unfold segment
  rw [clearPages_apply, if_pos (by unfold linear segOf PSIZE; omega)]

/-! ## The call -/

/-- A file that passes the checks of `exec`. -/
structure Loadable (f : ExecFile) (u_uid u_gid : BitVec 8) : Prop where
  access : f.ip.execAccess u_uid u_gid = true
  regular : f.ip.i_mode &&& IFMT = 0
  size : 32 ≤ f.size
  noErr : f.NoErr .header 0 32
  iput : f.iputErr = 0
  magic : hdrWord f.byte 0 = 0x0301 ∧ hdrWord f.byte 1 = 0x0430 ∧ hdrWord f.byte 2 = 0x20
  fits : (8192 : BitVec 16).sle (hdrWord f.byte 4) = false

/-- The process at the start of the call. -/
def ExecSys.called (s : ExecSys) : ExecSys := entered (trap0 s)

/-- The memory of the caller. -/
def ExecSys.userMem (s : ExecSys) : Mem := segment s.core s.p_addr

variable {f : ExecFile} {s : ExecSys}

/-- There is at most one vector. -/
theorem ArgVec.unique {arg : BitVec 16} {v v' : List (List Byte)} (h : ArgVec mem arg v)
    (h' : ArgVec mem arg v') : v = v' := by
  induction v generalizing arg v' with
  | nil =>
    cases v' with
    | nil => rfl
    | cons str v' => exact absurd h h'.1
  | cons str v ih =>
    cases v' with
    | nil => exact absurd h' h.1
    | cons str' v' => rw [h.2.1.unique h'.2.1, ih h.2.2 h'.2.2]

/-- No string of the vector has a NUL within. -/
theorem ArgVec.nul {arg : BitVec 16} {v : List (List Byte)} (h : ArgVec mem arg v) :
    ∀ str ∈ v, 0 ∉ str := by
  induction v generalizing arg with
  | nil => exact fun str hstr => absurd hstr List.not_mem_nil
  | cons str v ih => exact List.forall_mem_cons.mpr ⟨h.2.1.zero_notMem, ih h.2.2⟩

/-- The stack pointer of a loaded process. -/
@[simp]
theorem load_u_sp (rdy : Ready) (f : ExecFile) (s : ExecSys) : (rdy.load f s).u_sp = rdy.ts := by
  simp only [Ready.load]

/-- `exec` returns with the error of `packVector`. -/
theorem afterPack_error (f : ExecFile) (s : ExecSys) {e : ℕ} (he : e ≠ 0) :
    afterPack f s (.error e) = ({ s with u_error := e }, none) := by
  show (if e = 0 then s else { s with u_error := e }, (none : Option Ready)) = _
  rw [if_neg he]

@[simp]
theorem leave_core (f : ExecFile) (s : ExecSys) : (leave f s).core = s.core := rfl

@[simp]
theorem leave_u_sp (f : ExecFile) (s : ExecSys) : (leave f s).u_sp = s.u_sp := rfl

/-- A call that gets through. -/
theorem execTrap_of_some {s' : ExecSys} {rdy : Ready} (h : prepare f s.called = (s', some rdy)) :
    execTrap (.ok f) s = leave f (rdy.load f s') := by
  unfold execTrap exec execBody
  unfold ExecSys.called at h
  dsimp only
  rw [h]

/-- Once the file is found to be executable, the arguments come first. -/
theorem prepare_eq (haccess : f.ip.execAccess s.u_uid s.u_gid = true)
    (hreg : f.ip.i_mode &&& IFMT = 0) :
    prepare f s = afterPack f s (packVector s.userMem s.u_arg1) := by
  unfold prepare ExecSys.userMem
  rw [if_neg (by simp [haccess]), if_neg (by simp [hreg])]

/-- The header words are those of the file. -/
theorem Loadable.header (h : Loadable f s.u_uid s.u_gid) (u_hdr : ℕ → Byte) {i : ℕ} (hi : i < 16) :
    (readHeader f 0).2.u_error = 0 ∧ (readHeader f 0).2.u_offset.toNat = 32 ∧
      hdrWord (storeHdr u_hdr (readHeader f 0).1) i = hdrWord f.byte i := by
  have hmin : min 32 f.size = 32 := min_eq_left h.size
  obtain ⟨-, hno⟩ | ⟨herr, -, hst, hoff⟩ := readHeader_cases f
  · rw [hmin] at hno
    exact absurd h.noErr hno
  · rw [hmin] at hst hoff
    refine ⟨herr, hoff, hdrWord_congr (fun j hj => ?_) hi⟩
    rw [hst, storeHdr_bytesAt (by decide), if_pos hj]

/-- A header with the right magic numbers and sizes that fit is accepted. -/
theorem checkHeader_ok {na : ℕ} {packed : List Byte} {u : IoArgs} (herr : s.u_error = 0)
    (hmagic : hdrWord s.u_hdr 0 = 0x0301 ∧ hdrWord s.u_hdr 1 = 0x0430 ∧ hdrWord s.u_hdr 2 = 0x20)
    (hfits : (8192 : BitVec 16).sle (hdrWord s.u_hdr 4) = false) :
    checkHeader na packed u s = (s, some ⟨na, packed, u⟩) := by
  unfold checkHeader
  rw [if_neg (by simp [herr]), if_neg (by simp [hmagic]), hfits]
  rfl

end UnixV6
