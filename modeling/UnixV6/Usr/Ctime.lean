import UnixV6.Lib.Calendar

/-!
# Calendar time (`usr/ctime.c`)

`gmtime` splits a time, which it gets in two words, by a long division into a number of 8 hours and
a rest of seconds, and that into the fields of a date. The two loops take years and months off the
day number. Apart from the long division the arithmetic never leaves 16 bits, so it is that of `ℤ`;
the quotient is what an `int` of 16 bits makes of it.
-/

open Finset Calendar

namespace UnixV6

/-- The loop of `ldiv` over the bits below `i`: the quotient and the remainder at its end. The bits
of the quotient from 16 on are set 16 places lower. -/
def ldivLoop (ah al bl : BitVec 16) : ℕ → BitVec 16 → BitVec 16 → BitVec 16 × BitVec 16
  | 0, quotient, remainder => (quotient, remainder)
  | i + 1, quotient, remainder =>
    let remainder := remainder <<< 1 ||| ((if i ≥ 16 then ah else al) >>> (i % 16) &&& 1)
    if bl ≤ remainder then
      ldivLoop ah al bl i (quotient ||| BitVec.twoPow 16 (i % 16)) (remainder - bl)
    else ldivLoop ah al bl i quotient remainder

/-- `ldiv`. -/
def ldiv (ah al bl : BitVec 16) : BitVec 16 × BitVec 16 := ldivLoop ah al bl 32 0 0

/-- `dysize`. -/
def dysize (y : ℤ) : ℤ := if y.tmod 4 = 0 then 366 else 365

/-- The table of the lengths of the months. -/
def dmsize : List ℤ := [31, 28, 31, 30, 31, 30, 31, 31, 30, 31, 30, 31]

theorem dysize_pos (y : ℤ) : 0 < dysize y := by
  unfold dysize
  split_ifs <;> omega

/-- The loop of `gmtime` over the years: the day of the year and the year. -/
def gmtimeYear (d0 d1 : ℤ) : ℤ × ℤ :=
  if d0 ≥ dysize d1 then gmtimeYear (d0 - dysize d1) (d1 + 1) else (d0, d1)
termination_by d0.toNat
decreasing_by
  have := dysize_pos d1
  omega

/-- The loop of `gmtime` over the months, for those that are left in the table: the day of the month
and the month. There is no result if the loop runs beyond the table. -/
def gmtimeMonth : List ℤ → ℤ → ℤ → Option (ℤ × ℤ)
  | [], _, _ => none
  | size :: sizes, d0, d1 =>
    if d0 ≥ size then gmtimeMonth sizes (d0 - size) (d1 + 1) else some (d0, d1)

/-- The array `xtime`. -/
structure Xtime where
  sec : ℤ
  min : ℤ
  hour : ℤ
  mday : ℤ
  mon : ℤ
  year : ℤ
  wday : ℤ
  yday : ℤ
  isday : ℤ
  deriving DecidableEq, Repr

/-- `gmtime` of the words `tim[0]` and `tim[1]`: the fields, and the table of the months, which it
changes for a while. -/
def gmtime (dmsize : List ℤ) (tim0 tim1 : BitVec 16) : Option (Xtime × List ℤ) :=
  let d0 : ℤ := (ldiv tim0 tim1 28800).1.toInt
  let d1 : ℤ := (ldiv tim0 tim1 28800).2.toInt
  -- generate hours:minutes:seconds
  let sec := d1.tmod 60
  let d1 := d1.tdiv 60
  let min := d1.tmod 60
  let d1 := d1.tdiv 60
  let hour := d1 + d0.tmod 3 * 8
  -- the day number and the day of the week
  let d0 := d0.tdiv 3
  let wday := (d0 + 4).tmod 7
  let year := gmtimeYear d0 70
  let sizes := if dysize year.2 = 366 then dmsize.set 1 29 else dmsize
  (gmtimeMonth sizes year.1 0).map fun month =>
    ({ sec, min, hour, mday := month.1 + 1, mon := month.2, year := year.2, wday, yday := year.1,
       isday := 0 }, sizes.set 1 28)

/-- The fields show the date and time `c`; the year is counted from 1900. -/
structure Xtime.Shows (x : Xtime) (c : Civil) : Prop where
  sec : x.sec = c.sec
  min : x.min = c.min
  hour : x.hour = c.hour
  mday : x.mday = c.day
  mon : x.mon = c.month
  year : x.year + 1900 = c.year
  wday : x.wday = c.weekday
  yday : x.yday = c.dayOfYear

/-- `gmtime` returns the civil time `t` seconds after 1970-01-01 00:00:00, and leaves the table of
the months as it was. -/
def GmtimeOk (t : ℕ) : Prop :=
  ∃ x, gmtime dmsize (BitVec.ofNat 16 (t / 65536)) (BitVec.ofNat 16 t) = some (x, dmsize) ∧
    (∃ c : Civil, c.seconds = t) ∧ ∀ c : Civil, c.seconds = t → x.Shows c

/-- Fields show one date only. -/
theorem Xtime.Shows.unique {x : Xtime} {c d : Civil} (hc : x.Shows c) (hd : x.Shows d) : c = d := by
  ext
  · exact_mod_cast hc.year.symm.trans hd.year
  · exact_mod_cast hc.mon.symm.trans hd.mon
  · exact_mod_cast hc.mday.symm.trans hd.mday
  · exact_mod_cast hc.hour.symm.trans hd.hour
  · exact_mod_cast hc.min.symm.trans hd.min
  · exact_mod_cast hc.sec.symm.trans hd.sec

/-! ## The long division -/

/-- The bit that the loop of `ldiv` looks at. -/
theorem toNat_bit (ah al : BitVec 16) {i : ℕ} (hi : i < 32) :
    ((if i ≥ 16 then ah else al) >>> (i % 16) &&& 1 : BitVec 16).toNat =
      (ah.toNat * 65536 + al.toNat) / 2 ^ i % 2 := by
  have hal := al.isLt
  rw [BitVec.toNat_and, BitVec.toNat_ushiftRight, Nat.shiftRight_eq_div_pow]
  change _ &&& 1 = _
  rw [Nat.and_one_is_mod]
  split_ifs with h
  · -- a bit of the high word
    obtain ⟨j, rfl⟩ := Nat.exists_eq_add_of_le h
    have hj : (16 + j) % 16 = j := by omega
    have hhigh : (ah.toNat * 65536 + al.toNat) / 2 ^ 16 = ah.toNat := by omega
    rw [hj, pow_add, ← Nat.div_div_eq_div_mul, hhigh]
  · -- a bit of the low word: the high word is a multiple of `2 ^ (i + 1)`
    obtain ⟨j, hj⟩ : ∃ j, 16 = i + 1 + j := ⟨15 - i, by omega⟩
    have hi' : i % 16 = i := by omega
    have hpow : ah.toNat * 65536 = 2 * (ah.toNat * 2 ^ j) * 2 ^ i := by
      have h16 : 65536 = 2 ^ (i + 1 + j) := by
        rw [← hj]
        rfl
      rw [h16, pow_add, pow_succ]
      ring
    rw [hi', hpow, Nat.add_comm, Nat.add_mul_div_right _ _ (by positivity),
      Nat.add_mul_mod_self_left]

/-- The remainder is doubled, and the next bit comes in. -/
theorem toNat_shift_or {r b : BitVec 16} (hr : r.toNat < 2 ^ 15) (hb : b.toNat < 2) :
    (r <<< 1 ||| b).toNat = 2 * r.toNat + b.toNat := by
  rw [BitVec.toNat_or, BitVec.toNat_shiftLeft, Nat.shiftLeft_eq, Nat.mod_eq_of_lt (by omega),
    ← Nat.shiftLeft_eq, ← Nat.shiftLeft_add_eq_or_of_lt (by simpa using hb), Nat.shiftLeft_eq]
  omega

/-- One more month passed to the comparison. -/
theorem lt_succ_and (T : ℕ → Bool) (b i : ℕ) :
    (decide (b < i + 1) && T b) = ((decide (b < i) && T b) || (decide (b = i) && T i)) := by
  rcases eq_or_ne b i with rfl | hne
  · simp
  · have hiff : b < i + 1 ↔ b < i := by omega
    simp [hne, hiff]

/-- What the loop of `ldiv` adds to a quotient and a remainder of the bits above. -/
theorem ldivLoop_spec (ah al bl quotient remainder : BitVec 16) (hbl : 0 < bl.toNat)
    (hlt : bl.toNat ≤ 2 ^ 15) {i t : ℕ} (hi : i ≤ 32) (ht : t = ah.toNat * 65536 + al.toNat)
    (hrem : remainder.toNat = t / 2 ^ i % bl.toNat) :
    (ldivLoop ah al bl i quotient remainder).2.toNat = t % bl.toNat ∧
      ∀ b < 16, (ldivLoop ah al bl i quotient remainder).1.getLsbD b =
        (quotient.getLsbD b || (decide (b < i) && (t / bl.toNat).testBit b) ||
          (decide (b + 16 < i) && (t / bl.toNat).testBit (b + 16))) := by
  induction i generalizing quotient remainder with
  | zero => simp [ldivLoop, hrem]
  | succ i ih =>
    have hr := Nat.mod_lt (t / 2 ^ (i + 1)) hbl
    rw [← hrem] at hr
    have hbit := toNat_bit ah al (show i < 32 by omega)
    rw [← ht] at hbit
    unfold ldivLoop
    generalize (if i ≥ 16 then ah else al) >>> (i % 16) &&& 1 = bit at hbit ⊢
    have hshift := toNat_shift_or (r := remainder) (b := bit) (by omega) (by omega)
    generalize remainder <<< 1 ||| bit = shifted at hshift ⊢
    -- the bits of the time from `i` on, divided
    have hhalf : t / 2 ^ i = 2 * (t / 2 ^ (i + 1)) + bit.toNat := by
      rw [pow_succ, ← Nat.div_div_eq_div_mul, hbit]
      omega
    have hold := Nat.div_add_mod (t / 2 ^ (i + 1)) bl.toNat
    rw [← hrem] at hold
    have htest : (t / bl.toNat).testBit i = decide (t / 2 ^ i / bl.toNat % 2 = 1) := by
      rw [Nat.testBit_eq_decide_div_mod_eq, Nat.div_div_eq_div_mul, Nat.mul_comm,
        ← Nat.div_div_eq_div_mul]
    generalize t / 2 ^ (i + 1) / bl.toNat = k at hold
    by_cases hle : bl ≤ shifted
    · have hle' : bl.toNat ≤ shifted.toNat := hle
      have hsub : (shifted - bl).toNat = shifted.toNat - bl.toNat := BitVec.toNat_sub_of_le hle
      obtain ⟨hdiv, hmod⟩ : t / 2 ^ i / bl.toNat = 2 * k + 1 ∧
          t / 2 ^ i % bl.toNat = shifted.toNat - bl.toNat := by
        rw [Nat.div_mod_unique hbl]
        have hmul : bl.toNat * (2 * k + 1) = 2 * (bl.toNat * k) + bl.toNat := by ring
        omega
      have hset : (t / bl.toNat).testBit i = true := by
        rw [htest, hdiv]
        simp
      simp only [if_pos hle]
      obtain ⟨hr', hq⟩ := ih (quotient ||| BitVec.twoPow 16 (i % 16)) (shifted - bl) (by omega)
        (hsub.trans hmod.symm)
      refine ⟨hr', fun b hb => ?_⟩
      have hplace : (decide (i % 16 < 16) && decide (i % 16 = b)) =
          (decide (b = i) || decide (b + 16 = i)) := by
        rw [decide_eq_true (Nat.mod_lt i (by decide)), Bool.true_and, ← Bool.decide_or]
        apply decide_eq_decide.mpr
        omega
      rw [hq b hb, BitVec.getLsbD_or, BitVec.getLsbD_twoPow, hplace, lt_succ_and, lt_succ_and, hset]
      simp only [Bool.and_true]
      ac_rfl
    · have hlt' : shifted.toNat < bl.toNat := not_le.mp hle
      obtain ⟨hdiv, hmod⟩ : t / 2 ^ i / bl.toNat = 2 * k ∧
          t / 2 ^ i % bl.toNat = shifted.toNat := by
        rw [Nat.div_mod_unique hbl]
        have hmul : bl.toNat * (2 * k) = 2 * (bl.toNat * k) := by ring
        omega
      have hclear : (t / bl.toNat).testBit i = false := by
        rw [htest, hdiv]
        simp
      simp only [if_neg hle]
      obtain ⟨hr', hq⟩ := ih quotient shifted (by omega) hmod.symm
      refine ⟨hr', fun b hb => ?_⟩
      rw [hq b hb, lt_succ_and, lt_succ_and, hclear]
      simp only [Bool.and_false, Bool.or_false]

/-- The remainder of the division of a time is right. The quotient is, as long as it fits into 16
bits. -/
theorem ldiv_spec {t : ℕ} (ht : t < 2 ^ 32) :
    (ldiv (BitVec.ofNat 16 (t / 65536)) (BitVec.ofNat 16 t) 28800).2.toNat = t % 28800 ∧
      (t / 28800 < 2 ^ 16 →
        (ldiv (BitVec.ofNat 16 (t / 65536)) (BitVec.ofNat 16 t) 28800).1.toNat = t / 28800) := by
  have hword : t = (BitVec.ofNat 16 (t / 65536)).toNat * 65536 + (BitVec.ofNat 16 t).toNat := by
    simp only [BitVec.toNat_ofNat]
    omega
  have hrem : (0 : BitVec 16).toNat = t / 2 ^ 32 % (28800 : BitVec 16).toNat := by
    rw [Nat.div_eq_of_lt ht]
    rfl
  obtain ⟨hr, hq⟩ := ldivLoop_spec (BitVec.ofNat 16 (t / 65536)) (BitVec.ofNat 16 t) 28800 0 0
    (by decide) (by decide) le_rfl hword hrem
  refine ⟨hr, fun hlt => ?_⟩
  apply Nat.eq_of_testBit_eq
  intro b
  rcases lt_or_ge b 16 with hb | hb
  · -- a quotient of 16 bits has no bits to be lost
    have hhigh : (t / 28800).testBit (b + 16) = false :=
      Nat.testBit_lt_two_pow (hlt.trans_le (Nat.pow_le_pow_right (by decide) (by omega)))
    have hb' : b < 32 := by omega
    rw [BitVec.testBit_toNat, ldiv, hq b hb]
    change (_ || (_ && (t / 28800).testBit b) || (_ && (t / 28800).testBit (b + 16))) = _
    simp [hhigh, hb']
  · have hpow : 2 ^ 16 ≤ 2 ^ b := Nat.pow_le_pow_right (by decide) hb
    rw [Nat.testBit_lt_two_pow (hlt.trans_le hpow),
      Nat.testBit_lt_two_pow ((BitVec.isLt _).trans_le hpow)]

/-! ## Years and months -/

/-- `dysize` is right up to the year 2099. -/
theorem dysize_eq {k : ℕ} (hk : k < 130) :
    dysize (70 + (k : ℤ)) = (yearLength (1970 + k) : ℤ) := by
  have hleap : IsLeap (1970 + k) ↔ (70 + k) % 4 = 0 := by
    unfold IsLeap
    omega
  unfold dysize yearLength
  simp only [hleap]
  rw [Int.tmod_eq_emod_of_nonneg (by omega)]
  split_ifs <;> omega

/-- The loop over the years finds the year of a day number `n`, when it has taken off the first `k`
years. -/
theorem gmtimeYear_spec (n k d0 : ℕ) (hn : n = ∑ i ∈ range k, yearLength (1970 + i) + d0)
    (hlt : n < 47450) :
    ∃ a r : ℕ, gmtimeYear d0 (70 + (k : ℤ)) = ((r : ℤ), 70 + (a : ℤ)) ∧ r < yearLength (1970 + a) ∧
      n = ∑ i ∈ range a, yearLength (1970 + i) + r := by
  induction d0 using Nat.strong_induction_on generalizing k with
  | h d0 ih =>
    have hk := le_daysBeforeYear k
    unfold daysBeforeYear at hk
    rw [Nat.add_sub_cancel_left] at hk
    have hsize := dysize_eq (show k < 130 by omega)
    have hyear := yearLength_ge (1970 + k)
    unfold gmtimeYear
    rw [hsize]
    by_cases hle : yearLength (1970 + k) ≤ d0
    · rw [if_pos (by exact_mod_cast hle)]
      have hnext := ih (d0 - yearLength (1970 + k)) (by omega) (k + 1) (by
        rw [sum_range_succ]
        omega)
      rwa [Nat.cast_sub hle, Nat.cast_succ, ← add_assoc] at hnext
    · rw [if_neg (by exact_mod_cast hle)]
      exact ⟨k, d0, rfl, not_le.mp hle, hn⟩

/-- The loop over the months finds the month of a day of the year. -/
theorem gmtimeMonth_spec (f : ℕ → ℕ) (n k d0 : ℕ) (hlt : d0 < ∑ i ∈ range n, f (k + i)) :
    ∃ m r : ℕ, gmtimeMonth ((List.range' k n).map fun i => (f i : ℤ)) d0 k =
        some ((r : ℤ), (k : ℤ) + (m : ℤ)) ∧
      m < n ∧ r < f (k + m) ∧ d0 = ∑ i ∈ range m, f (k + i) + r := by
  induction n generalizing k d0 with
  | zero => simp at hlt
  | succ n ih =>
    rw [List.range'_succ, List.map_cons]
    unfold gmtimeMonth
    by_cases hle : f k ≤ d0
    · rw [if_pos (by exact_mod_cast hle)]
      rw [sum_range_succ', add_zero] at hlt
      simp only [← Nat.add_assoc, Nat.add_right_comm k _ 1] at hlt
      -- the month is over: its days are taken off
      obtain ⟨m, r, hloop, hm, hr, hd⟩ := ih (k + 1) (d0 - f k) (by omega)
      rw [Nat.cast_sub hle, Nat.cast_succ] at hloop
      refine ⟨m + 1, r, ?_, by omega, ?_, ?_⟩
      · rw [hloop]
        push_cast
        ring_nf
      · rwa [← Nat.add_assoc, Nat.add_right_comm]
      · rw [sum_range_succ', add_zero]
        simp only [← Nat.add_assoc, Nat.add_right_comm k _ 1]
        omega
    · rw [if_neg (by exact_mod_cast hle)]
      exact ⟨0, d0, by simp, by omega, not_le.mp hle, by simp⟩

/-- The table of the months, with February as long as it is in the year `y`. -/
theorem table_eq (y : ℕ) :
    (if (yearLength y : ℤ) = 366 then dmsize.set 1 29 else dmsize) =
      (List.range' 0 12).map fun i => (monthLength y i : ℤ) := by
  unfold yearLength monthLength
  by_cases h : IsLeap y <;> simp [h, dmsize, List.range']

/-- The month table is restored after the call. -/
theorem table_restored (y : ℕ) :
    ((List.range' 0 12).map fun i => (monthLength y i : ℤ)).set 1 28 = dmsize := by
  simp [dmsize, List.range', monthLength]

/-- What `gmtime` makes of a number `d0` of 8 hours and `d1` seconds. -/
theorem gmtime_eq {tim0 tim1 : BitVec 16} {d0 d1 : ℕ} (hq : (ldiv tim0 tim1 28800).1.toInt = d0)
    (hr : (ldiv tim0 tim1 28800).2.toInt = d1) (hd0 : d0 < 2 ^ 15) (hd1 : d1 < 28800) :
    ∃ x, gmtime dmsize tim0 tim1 = some (x, dmsize) ∧
      ∃ c : Civil, c.seconds = 28800 * d0 + d1 ∧ x.Shows c := by
  obtain ⟨a, yday, hyear, hyday, hdays⟩ :=
    gmtimeYear_spec (d0 / 3) 0 (d0 / 3) (by simp) (by omega)
  have ha : 365 * a ≤ d0 / 3 := by
    have h := le_daysBeforeYear a
    unfold daysBeforeYear at h
    rw [Nat.add_sub_cancel_left] at h
    omega
  obtain ⟨m, day, hmonth, hm, hday, hydays⟩ := gmtimeMonth_spec (monthLength (1970 + a)) 12 0
    yday (by
      have h := daysBeforeMonth_year (1970 + a)
      unfold daysBeforeMonth at h
      simpa [h] using hyday)
  have hday' : day < monthLength (1970 + a) m := by rwa [Nat.zero_add] at hday
  simp only [Nat.zero_add] at hydays
  simp only [Nat.cast_zero, add_zero, zero_add] at hyear hmonth
  let c : Civil :=
    { year := 1970 + a, month := m, day := day + 1, hour := d1 / 3600 + d0 % 3 * 8
      min := d1 / 60 % 60, sec := d1 % 60, year_ge := Nat.le_add_right .., month_lt := hm
      day_pos := Nat.le_add_left .., day_le := hday', hour_lt := by omega
      min_lt := Nat.mod_lt _ (by decide), sec_lt := Nat.mod_lt _ (by decide) }
  have hcday : c.dayOfYear = yday := hydays.symm
  -- three times 8 hours are a day
  have hcdays : c.days = d0 / 3 := by
    unfold Civil.days daysBeforeYear
    rw [hcday, show c.year - 1970 = a from Nat.add_sub_cancel_left ..]
    exact hdays.symm
  have hseconds : c.seconds = 28800 * d0 + d1 := by
    change c.days * 86400 +
      ((d1 / 3600 + d0 % 3 * 8) * 3600 + d1 / 60 % 60 * 60 + d1 % 60) = _
    rw [hcdays]
    omega
  have hsize : dysize (70 + (a : ℤ)) = (yearLength (1970 + a) : ℤ) := dysize_eq (by omega)
  unfold gmtime
  simp only [hq, hr, ← Int.ofNat_tdiv, show (3 : ℤ) = ((3 : ℕ) : ℤ) from rfl, hyear, hsize,
    table_eq, hmonth, Option.map_some]
  rw [table_restored]
  refine ⟨_, rfl, c, hseconds, ⟨?_, ?_, ?_, ?_, rfl, ?_, ?_, ?_⟩⟩
  · change ((d1 : ℤ)).tmod 60 = ((d1 % 60 : ℕ) : ℤ)
    rfl
  · change ((d1 : ℤ).tdiv 60).tmod 60 = ((d1 / 60 % 60 : ℕ) : ℤ)
    rfl
  · change ((d1 / 60 / 60 + d0 % 3 * 8 : ℕ) : ℤ) = ((d1 / 3600 + d0 % 3 * 8 : ℕ) : ℤ)
    rw [Nat.div_div_eq_div_mul]
  · rfl
  · change 70 + (a : ℤ) + 1900 = ((1970 + a : ℕ) : ℤ)
    omega
  · change (((d0 / 3 : ℕ) : ℤ) + 4).tmod 7 = (((c.days + 4) % 7 : ℕ) : ℤ)
    rw [hcdays]
    rfl
  · change (yday : ℤ) = (c.dayOfYear : ℤ)
    rw [hcday]

/-- A number of 8 hours that is negative as an `int` is taken for a day of the year 1970. -/
theorem gmtime_of_neg {sizes : List ℤ} {tim0 tim1 : BitVec 16} {x : Xtime × List ℤ}
    (hneg : (ldiv tim0 tim1 28800).1.toInt < 0) (hx : gmtime sizes tim0 tim1 = some x) :
    x.1.year = 70 := by
  have hday : (ldiv tim0 tim1 28800).1.toInt.tdiv 3 ≤ 0 := by
    have h := Int.tdiv_nonneg (Int.neg_nonneg_of_nonpos hneg.le) (show (0 : ℤ) ≤ 3 by decide)
    rw [Int.neg_tdiv] at h
    omega
  unfold gmtime at hx
  obtain ⟨month, -, rfl⟩ := Option.map_eq_some_iff.mp hx
  change (gmtimeYear _ 70).2 = 70
  unfold gmtimeYear
  rw [if_neg]
  have := dysize_pos 70
  omega

/-- From the year 1999 on, the fields belong to another time. -/
theorem not_gmtimeOk {t : ℕ} (ht : t < 2 ^ 31) (hlarge : 28800 * 2 ^ 15 ≤ t) : ¬GmtimeOk t := by
  rintro ⟨x, hx, ⟨c, hc⟩, hshow⟩
  -- the remainder is right; the quotient has overflowed
  obtain ⟨hr, -⟩ := ldiv_spec (t := t) (by omega)
  have hrem : (ldiv (BitVec.ofNat 16 (t / 65536)) (BitVec.ofNat 16 t) 28800).2.toInt =
      (t % 28800 : ℕ) := by
    rw [BitVec.toInt_eq_toNat_of_lt (by omega), hr]
  have hquot := BitVec.two_mul_toInt_lt
    (x := (ldiv (BitVec.ofNat 16 (t / 65536)) (BitVec.ofNat 16 t) 28800).1)
  -- by the sign of the 16-bit quotient
  rcases lt_or_ge (ldiv (BitVec.ofNat 16 (t / 65536)) (BitVec.ofNat 16 t) 28800).1.toInt 0
    with hneg | hpos
  · -- the year is 1970
    have hyear := (hshow c hc).year
    rw [gmtime_of_neg hneg hx] at hyear
    have hcyear : c.year = 1970 := by omega
    -- so the date shown is in 1970, too early for `t`
    have hcday := c.dayOfYear_lt
    have hlen : yearLength 1970 = 365 := by decide
    rw [hcyear, hlen] at hcday
    have hdays : c.days = c.dayOfYear := by simp [Civil.days, daysBeforeYear, hcyear]
    have := c.hour_lt
    have := c.min_lt
    have := c.sec_lt
    unfold Civil.seconds at hc
    omega
  · -- the number of 8 hours is another one
    obtain ⟨d0, hd0⟩ := Int.eq_ofNat_of_zero_le hpos
    obtain ⟨y, hy, d, hd, hshow'⟩ := gmtime_eq hd0 hrem (by omega) (Nat.mod_lt t (by decide))
    obtain rfl : x = y := by
      rw [hx] at hy
      exact (Prod.mk.inj (Option.some.inj hy)).1
    rw [(hshow c hc).unique hshow'] at hc
    omega

/-- `gmtime` is the civil calendar exactly up to the time at which the number of 8 hours no longer
fits into 15 bits. -/
theorem gmtime_iff {t : ℕ} (ht : t < 2 ^ 31) : GmtimeOk t ↔ t < 28800 * 2 ^ 15 := by
  constructor
  · intro hok
    by_contra hlarge
    exact not_gmtimeOk ht (not_lt.mp hlarge) hok
  · intro hsmall
    obtain ⟨hr, hq⟩ := ldiv_spec (t := t) (by omega)
    have hlt := Nat.mod_lt t (show 0 < 28800 by decide)
    have hrem : (ldiv (BitVec.ofNat 16 (t / 65536)) (BitVec.ofNat 16 t) 28800).2.toInt =
        (t % 28800 : ℕ) := by
      rw [BitVec.toInt_eq_toNat_of_lt (by omega), hr]
    have hquot : (ldiv (BitVec.ofNat 16 (t / 65536)) (BitVec.ofNat 16 t) 28800).1.toInt =
        (t / 28800 : ℕ) := by
      rw [BitVec.toInt_eq_toNat_of_lt (by omega), hq (by omega)]
    obtain ⟨x, hx, c, hc, hshow⟩ := gmtime_eq hquot hrem (by omega) hlt
    have hct : c.seconds = t := by omega
    refine ⟨x, hx, ⟨c, hct⟩, fun c' hc' => ?_⟩
    rwa [Civil.seconds_injective (hc'.trans hct.symm)]

/-- The last second of the 29th of February 1972. -/
theorem gmtime_iff_1972 :
    68255999 < 2 ^ 31 ∧ (GmtimeOk 68255999 ↔ 68255999 < 28800 * 2 ^ 15) :=
  ⟨by decide, gmtime_iff (by decide)⟩

/-- 1999-11-27 16:00:00 is the first time that `gmtime` does not know. -/
theorem gmtime_wraps : ¬GmtimeOk 943718400 :=
  not_gmtimeOk (by decide) (by decide)

end UnixV6
