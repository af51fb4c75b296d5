import UnixV6.Dmr.Ide
import UnixV6.Lib.Run

/-!
# Callouts (`ken/clock.c`)

`callout[]` holds the requests that `timeout` makes of the clock: the delay after the entry before
it, a function and its argument, up to an entry without a function, whose other words are whatever
was left there. `clock` counts the first entry down and calls the functions that are due; these may
call `timeout` themselves, while the entries that have been called are still in the table.

An access to an entry that `callout[]` does not have is an outcome of its own. Functions are of any
type `φ`: what they do is the steps that are taken until they return.
-/

open Function

namespace UnixV6.Callout

/-- Max simultaneous time callouts. -/
def NCALL : ℕ := 20

/-- A difference of two `int`s. -/
def sub16 (a b : ℤ) : ℤ := (a - b).bmod 65536

structure Callo (φ : Type) where
  c_time : ℤ
  c_arg : Word
  c_func : Option φ

/-- A request as it was made: `due` is the number of the clock call it was made for. -/
structure Req (φ : Type) where
  f : φ
  arg : Word
  due : ℕ

structure CallSys (φ : Type) where
  callout : ℕ → Callo φ
  /-- `p1` of a clock call whose function is running. -/
  firing : Option ℕ
  /-- The code has left the table. -/
  outside : Bool
  /-- Clock calls so far. -/
  now : ℕ
  /-- The requests, in the order they were made. -/
  made : List (Req φ)
  /-- The calls, each with its argument and the number of the clock call. -/
  calls : List (φ × Word × ℕ)

variable {φ : Type}

/-! ## `timeout` -/

/-- The first loop of `timeout`: the entries that are not later. -/
def skip (tab : ℕ → Callo φ) : ℕ → ℕ → ℤ → Option (ℕ × ℤ)
  | 0, _, _ => none
  | n + 1, p1, t =>
    if NCALL ≤ p1 then none
    else if (tab p1).c_func.isSome ∧ (tab p1).c_time ≤ t then
      skip tab n (p1 + 1) (sub16 t (tab p1).c_time)
    else some (p1, t)

/-- The second loop: the end of the table. -/
def findEnd (tab : ℕ → Callo φ) : ℕ → ℕ → Option ℕ
  | 0, _ => none
  | n + 1, p2 =>
    if NCALL ≤ p2 then none
    else if (tab p2).c_func.isSome then findEnd tab n (p2 + 1)
    else some p2

/-- The third loop: the `n` entries from `p1` on move up. -/
def shiftUp (p1 : ℕ) : ℕ → (ℕ → Callo φ) → ℕ → Callo φ
  | 0, tab => tab
  | n + 1, tab => shiftUp p1 n (update tab (p1 + n + 1) (tab (p1 + n)))

def timeout (f : φ) (arg : Word) (tim : ℤ) (tab : ℕ → Callo φ) : Option (ℕ → Callo φ) := do
  let (p1, t) ← skip tab (NCALL + 1) 0 tim
  let tab := update tab p1 { tab p1 with c_time := sub16 (tab p1).c_time t }
  let p2 ← findEnd tab (NCALL + 1) p1
  if NCALL ≤ p2 + 1 then none
  else
    let tab := shiftUp p1 (p2 + 1 - p1) tab
    some (update tab p1 ⟨t, arg, some f⟩)

/-! ## `clock` -/

/-- The first entry with time to go. -/
def firstNonZero (tab : ℕ → Callo φ) : ℕ → ℕ → Option ℕ
  | 0, _ => none
  | n + 1, p2 =>
    if NCALL ≤ p2 then none
    else if (tab p2).c_time ≤ 0 ∧ (tab p2).c_func.isSome then firstNonZero tab n (p2 + 1)
    else some p2

/-- The entries from `p1` on move down to `p2`. -/
def compact : ℕ → ℕ → ℕ → (ℕ → Callo φ) → Option (ℕ → Callo φ)
  | 0, _, _, _ => none
  | n + 1, p1, p2, tab =>
    if NCALL ≤ p1 then none
    else
      let tab := update tab p2 { tab p2 with c_func := (tab p1).c_func }
      if (tab p2).c_func.isSome then
        compact n (p1 + 1) (p2 + 1)
          (update tab p2 { tab p2 with c_time := (tab p1).c_time, c_arg := (tab p1).c_arg })
      else some tab

namespace CallSys

/-- The code leaves the table. -/
def leave (s : CallSys φ) : CallSys φ := { s with outside := true }

/-- The entries that have been called go. -/
def finish (s : CallSys φ) (p1 : ℕ) : CallSys φ :=
  match compact (NCALL + 1) p1 0 s.callout with
  | some tab => { s with callout := tab, firing := none }
  | none => s.leave

/-- The loop over the entries that are due, at `p1`: the next call, or the end of the clock call. -/
def fire (s : CallSys φ) (p1 : ℕ) : CallSys φ :=
  if NCALL ≤ p1 then s.leave
  else
    match (s.callout p1).c_func with
    | some f =>
      if (s.callout p1).c_time ≤ 0 then
        { s with firing := some p1, calls := s.calls ++ [(f, (s.callout p1).c_arg, s.now)] }
      else s.finish p1
    | none => s.finish p1

/-- `clock`, up to the first call. -/
def clock (s : CallSys φ) : CallSys φ :=
  let s := { s with now := s.now + 1 }
  if (s.callout 0).c_func.isNone then s
  else
    match firstNonZero s.callout (NCALL + 1) 0 with
    | none => s.leave
    | some p2 =>
      let s := { s with
        callout := update s.callout p2
          { s.callout p2 with c_time := sub16 (s.callout p2).c_time 1 } }
      if (s.callout 0).c_time ≤ 0 then s.fire 0 else s

end CallSys

inductive CallAct (φ : Type)
  /-- A request, from ordinary code or from the function that is running. -/
  | timeout (f : φ) (arg : Word) (t : ℕ)
  | clock
  /-- The function that is running returns. -/
  | ret

def step (s : CallSys φ) : CallAct φ → Option (CallSys φ)
  | .timeout f arg t =>
    if s.outside then none
    else
      match Callout.timeout f arg t s.callout with
      | some tab => some { s with callout := tab, made := s.made ++ [⟨f, arg, s.now + t⟩] }
      | none => some s.leave
  | .clock => if s.outside ∨ s.firing.isSome then none else some s.clock
  | .ret =>
    if s.outside then none
    else s.firing.map fun p1 => s.fire (p1 + 1)

/-- No request has been made; the words of the table are zero. -/
def boot : CallSys φ where
  callout := fun _ => ⟨0, 0, none⟩
  firing := none
  outside := false
  now := 0
  made := []
  calls := []

/-! ## The table as a list -/

/-- The entries of the table are `es`. -/
structure Table (tab : ℕ → Callo φ) (es : List (Callo φ)) : Prop where
  entry : ∀ j e, es[j]? = some e → tab j = e
  func : ∀ e ∈ es, e.c_func.isSome
  stop : (tab es.length).c_func = none
  fits : es.length < NCALL

/-- The entries for the requests `rs`, when the clock is at `base`. -/
def toEntries (base : ℕ) : List (Req φ) → List (Callo φ)
  | [] => []
  | r :: rs => ⟨r.due - base, r.arg, some r.f⟩ :: toEntries r.due rs

/-- An entry is put in for `t` from now. -/
def insertEntry (f : φ) (arg : Word) : ℤ → List (Callo φ) → List (Callo φ)
  | t, [] => [⟨t, arg, some f⟩]
  | t, e :: es =>
    if e.c_time ≤ t then e :: insertEntry f arg (t - e.c_time) es
    else ⟨t, arg, some f⟩ :: { e with c_time := e.c_time - t } :: es

/-- A request comes after those that are not later. -/
def insertReq (r : Req φ) : List (Req φ) → List (Req φ)
  | [] => [r]
  | x :: xs => if x.due ≤ r.due then x :: insertReq r xs else r :: x :: xs

/-- Requests in the order of their time, none before `base` and none out of range from it. -/
structure Sorted (base : ℕ) (rs : List (Req φ)) : Prop where
  pairwise : rs.Pairwise fun a b => a.due ≤ b.due
  range : ∀ r ∈ rs, base ≤ r.due ∧ r.due ≤ base + 32767

/-- The requests behind the first. -/
theorem Sorted.tail {base : ℕ} {r : Req φ} {rs : List (Req φ)} (h : Sorted base (r :: rs)) :
    Sorted r.due rs := by
  have hpair := List.pairwise_cons.mp h.pairwise
  refine ⟨hpair.2, fun x hx => ⟨hpair.1 x hx, ?_⟩⟩
  have hr := h.range r List.mem_cons_self
  have hx := h.range x (List.mem_cons_of_mem r hx)
  omega

/-- One entry for each request. -/
theorem toEntries_length (base : ℕ) (rs : List (Req φ)) :
    (toEntries base rs).length = rs.length := by
  induction rs generalizing base with
  | nil => rfl
  | cons r rs ih => simp [toEntries, ih]

/-- The times are in range for the arithmetic of `int`s. -/
theorem toEntries_time {base : ℕ} {rs : List (Req φ)} (h : Sorted base rs) :
    ∀ e ∈ toEntries base rs, 0 ≤ e.c_time ∧ e.c_time ≤ 32767 := by
  induction rs generalizing base with
  | nil => simp [toEntries]
  | cons r rs ih =>
    intro e he
    rcases List.mem_cons.mp he with rfl | he
    · have hr := h.range r List.mem_cons_self
      simp only
      omega
    · exact ih h.tail e he

/-- What `insertEntry` does is what becomes of the requests. -/
theorem insertEntry_eq {base : ℕ} {rs : List (Req φ)} (r : Req φ) :
    insertEntry r.f r.arg (r.due - base) (toEntries base rs) = toEntries base (insertReq r rs) := by
  induction rs generalizing base with
  | nil => rfl
  | cons x rs ih =>
    simp only [toEntries, insertEntry, insertReq]
    by_cases hle : x.due ≤ r.due
    · rw [if_pos (by omega), if_pos hle, toEntries,
        show (r.due - base - (x.due - base) : ℤ) = r.due - x.due from by ring, ih]
    · rw [if_neg (by omega), if_neg hle, toEntries, toEntries,
        show (x.due - base - (r.due - base) : ℤ) = x.due - r.due from by ring]

/-- A difference that fits into 16 bits. -/
theorem sub16_eq {a b : ℤ} (h : -32768 ≤ a - b) (h' : a - b ≤ 32767) : sub16 a b = a - b := by
  rw [sub16]
  exact Int.bmod_eq_of_le (by omega) (by omega)

/-! ### The loops of `timeout` -/

/-- Where the new entry goes, and its time after the entries before it. -/
def place : List (Callo φ) → ℤ → ℕ × ℤ
  | [], t => (0, t)
  | e :: es, t =>
    if e.c_time ≤ t then ((place es (t - e.c_time)).1 + 1, (place es (t - e.c_time)).2) else (0, t)

/-- The loop of `timeout` over the earlier entries. -/
theorem skip_eq (tab : ℕ → Callo φ) {es : List (Callo φ)} {n : ℕ} (p1 : ℕ) {t : ℤ}
    (hentry : ∀ j e, es[j]? = some e → tab (p1 + j) = e)
    (hfunc : ∀ e ∈ es, e.c_func.isSome) (hstop : (tab (p1 + es.length)).c_func = none)
    (hfits : p1 + es.length < NCALL) (hn : es.length < n)
    (htime : ∀ e ∈ es, 0 ≤ e.c_time ∧ e.c_time ≤ 32767) (ht : 0 ≤ t) (ht' : t ≤ 32767) :
    skip tab n p1 t = some (p1 + (place es t).1, (place es t).2) := by
  -- induction on the entries passed so far
  induction es generalizing n p1 t with
  | nil =>
    obtain ⟨n, rfl⟩ : ∃ m, n = m + 1 := ⟨n - 1, by simp only [List.length_nil] at hn; omega⟩
    simp only [List.length_nil, Nat.add_zero] at hstop hfits
    rw [skip, if_neg (by omega), if_neg (by simp [hstop])]
    rfl
  | cons e es ih =>
    obtain ⟨n, rfl⟩ : ∃ m, n = m + 1 := ⟨n - 1, by omega⟩
    -- the table holds the entries, one place further on
    simp only [List.length_cons] at hstop hfits hn
    have hhead : tab p1 = e := hentry 0 e rfl
    have he := htime e List.mem_cons_self
    have hentry' : ∀ j x, es[j]? = some x → tab (p1 + 1 + j) = x := fun j x hx => by
      rw [show p1 + 1 + j = p1 + (j + 1) from by omega]
      exact hentry (j + 1) x hx
    have hstop' : (tab (p1 + 1 + es.length)).c_func = none := by
      rw [show p1 + 1 + es.length = p1 + (es.length + 1) from by omega]
      exact hstop
    rw [skip, if_neg (by omega), hhead, place]
    by_cases hle : e.c_time ≤ t
    · -- an entry that is due before: go on behind it
      rw [if_pos ⟨hfunc e List.mem_cons_self, hle⟩, if_pos hle, sub16_eq (by omega) (by omega)]
      rw [ih (p1 + 1) hentry' (fun x hx => hfunc x (List.mem_cons_of_mem e hx)) hstop' (by omega)
        (by omega) (fun x hx => htime x (List.mem_cons_of_mem e hx)) (by omega) (by omega)]
      simp only [Nat.add_assoc, Nat.add_comm 1]
    -- the request goes before this entry
    · rw [if_neg (fun h => hle h.2), if_neg hle]
      rfl

/-- The loop of `timeout` to the null entry. -/
theorem findEnd_eq (tab : ℕ → Callo φ) (p2 : ℕ) {m n : ℕ}
    (hfunc : ∀ j, j < m → (tab (p2 + j)).c_func.isSome) (hstop : (tab (p2 + m)).c_func = none)
    (hfits : p2 + m < NCALL) (hn : m < n) : findEnd tab n p2 = some (p2 + m) := by
  induction m generalizing n p2 with
  | zero =>
    obtain ⟨n, rfl⟩ : ∃ k, n = k + 1 := ⟨n - 1, by omega⟩
    rw [Nat.add_zero] at hstop hfits
    rw [findEnd, if_neg (by omega), if_neg (by simp [hstop]), Nat.add_zero]
  | succ m ih =>
    obtain ⟨n, rfl⟩ : ∃ k, n = k + 1 := ⟨n - 1, by omega⟩
    have hfunc' : ∀ j, j < m → (tab (p2 + 1 + j)).c_func.isSome := fun j hj => by
      rw [show p2 + 1 + j = p2 + (j + 1) from by omega]
      exact hfunc (j + 1) (by omega)
    have hstop' : (tab (p2 + 1 + m)).c_func = none := by
      rw [show p2 + 1 + m = p2 + (m + 1) from by omega]
      exact hstop
    rw [findEnd, if_neg (by omega), if_pos (show (tab p2).c_func.isSome from hfunc 0 (by omega)),
      ih (p2 + 1) hfunc' hstop' (by omega) (by omega)]
    congr 1
    omega

/-- The loop of `timeout` that moves the entries up. -/
theorem shiftUp_apply (p1 n j : ℕ) (tab : ℕ → Callo φ) :
    shiftUp p1 n tab j = if p1 < j ∧ j ≤ p1 + n then tab (j - 1) else tab j := by
  induction n generalizing tab with
  | zero => rw [shiftUp, if_neg (by omega)]
  | succ n ih =>
    rw [shiftUp, ih]
    by_cases hlast : j = p1 + n + 1
    · rw [if_neg (by omega), if_pos (by omega), hlast, update_self]
      rfl
    · rw [update_of_ne hlast]
      split
      · rw [update_of_ne (by omega), if_pos (by omega)]
      · rw [if_neg (by omega)]

/-- Where a request goes, and with which time. -/
theorem place_spec {es : List (Callo φ)} {t : ℤ} (ht : 0 ≤ t)
    (htime : ∀ e ∈ es, 0 ≤ e.c_time) :
    (place es t).1 ≤ es.length ∧ 0 ≤ (place es t).2 ∧ (place es t).2 ≤ t ∧
      ∀ e, es[(place es t).1]? = some e → (place es t).2 < e.c_time := by
  induction es generalizing t with
  | nil => exact ⟨le_refl _, ht, le_refl _, by simp [place]⟩
  | cons e es ih =>
    have he := htime e List.mem_cons_self
    rw [place]
    by_cases hle : e.c_time ≤ t
    · obtain ⟨h₁, h₂, h₃, h₄⟩ := ih (t := t - e.c_time) (by omega)
        fun x hx => htime x (List.mem_cons_of_mem e hx)
      rw [if_pos hle]
      exact ⟨Nat.succ_le_succ h₁, h₂, by simp only; omega, h₄⟩
    · rw [if_neg hle]
      refine ⟨Nat.zero_le _, ht, le_refl _, fun x hx => ?_⟩
      obtain rfl : e = x := by simpa using hx
      simpa using hle

/-- The entries with a new one among them. -/
theorem insertEntry_getElem? (f : φ) (arg : Word) (t : ℤ) (es : List (Callo φ)) (j : ℕ) :
    (insertEntry f arg t es)[j]? =
      if j < (place es t).1 then es[j]?
      else if j = (place es t).1 then some ⟨(place es t).2, arg, some f⟩
      else if j = (place es t).1 + 1 then
        es[(place es t).1]?.map fun e => { e with c_time := e.c_time - (place es t).2 }
      else es[j - 1]? := by
  -- induction on the table; the index moves with it
  induction es generalizing t j with
  | nil => cases j <;> simp [insertEntry, place]
  | cons e es ih =>
    rw [insertEntry, place]
    by_cases hle : e.c_time ≤ t
    · rw [if_pos hle, if_pos hle]
      cases j with
      | zero => simp
      | succ j =>
        simp only [List.getElem?_cons_succ, ih, Nat.add_lt_add_iff_right, Nat.add_right_cancel_iff,
          Nat.add_sub_cancel]
        split
        · rfl
        · split
          · rfl
          · split
            · rfl
            · obtain ⟨k, rfl⟩ : ∃ k, j = k + 1 := ⟨j - 1, by omega⟩
              rfl
    · rw [if_neg hle, if_neg hle]
      -- the new entry comes first, the old one's time is relative to it
      match j with
      | 0 => simp
      | 1 => simp
      | j + 2 => simp

/-- There is one entry more. -/
theorem insertEntry_length (f : φ) (arg : Word) (t : ℤ) (es : List (Callo φ)) :
    (insertEntry f arg t es).length = es.length + 1 := by
  induction es generalizing t with
  | nil => rfl
  | cons e es ih =>
    rw [insertEntry]
    split
    · simp [ih]
    · simp

/-- The second half of `timeout`, for an entry that goes to `m`. -/
theorem findEnd_table {tab : ℕ → Callo φ} {es : List (Callo φ)} {m : ℕ} {c : ℤ}
    (hT : Table tab es) (hm : m ≤ es.length) :
    findEnd (update tab m { tab m with c_time := c }) (NCALL + 1) m = some es.length := by
  have hsame : ∀ j, (update tab m { tab m with c_time := c } j).c_func = (tab j).c_func := by
    intro j
    rcases eq_or_ne j m with rfl | hj
    · rw [update_self]
    · rw [update_of_ne hj]
  have hfits := hT.fits
  have hend := findEnd_eq (update tab m { tab m with c_time := c }) m
    (m := es.length - m) (n := NCALL + 1) (fun j hj => ?_) ?_ (by omega) (by omega)
  · rw [hend, Nat.add_sub_cancel' hm]
  · rw [hsame, hT.entry (m + j) _ (List.getElem?_eq_getElem (by omega))]
    exact hT.func _ (List.getElem_mem _)
  · rw [hsame, Nat.add_sub_cancel' hm]
    exact hT.stop

/-- `timeout` puts the entry in if there is room for it and for the end of the table, and leaves
the table otherwise. -/
theorem timeout_eq {tab : ℕ → Callo φ} {es : List (Callo φ)} (f : φ) (arg : Word) {t : ℤ}
    (hT : Table tab es) (htime : ∀ e ∈ es, 0 ≤ e.c_time ∧ e.c_time ≤ 32767) (ht : 0 ≤ t)
    (ht' : t ≤ 32767) :
    (es.length + 1 < NCALL →
      ∃ tab', timeout f arg t tab = some tab' ∧ Table tab' (insertEntry f arg t es)) ∧
    (¬ es.length + 1 < NCALL → timeout f arg t tab = none) := by
  -- where the entry goes, and what time is left for it
  obtain ⟨hm, ht₀, htt, hlater⟩ := place_spec ht fun e he => (htime e he).1
  have hskip := skip_eq tab (n := NCALL + 1) 0 (t := t) (by simpa using hT.entry) hT.func
    -- the loop of `timeout` finds that place
    (by simpa using hT.stop) (by simpa using hT.fits) (by have := hT.fits; omega) htime ht ht'
  rw [Nat.zero_add] at hskip
  have hinsert := insertEntry_getElem? f arg t es
  generalize (place es t).1 = m at hm hlater hskip hinsert
  generalize (place es t).2 = t' at ht₀ htt hlater hskip hinsert
  have hend := findEnd_table (c := sub16 (tab m).c_time t') hT hm
  have htimeout : timeout f arg t tab = if NCALL ≤ es.length + 1 then none else
      some (update (shiftUp m (es.length + 1 - m)
        (update tab m { tab m with c_time := sub16 (tab m).c_time t' })) m ⟨t', arg, some f⟩) := by
    -- `timeout` fails exactly if the table's end would move past the array
    simp only [timeout, hskip, Option.bind_eq_bind, Option.bind_some, hend]
  refine ⟨fun hroom => ?_, fun hroom => by rw [htimeout, if_pos (by omega)]⟩
  rw [htimeout, if_neg (by omega)]
  -- the new table, entry by entry
  refine ⟨_, rfl, ?_, ?_, ?_, ?_⟩
  · intro j e he
    rw [hinsert] at he
    -- the new entry itself
    by_cases hjm : j = m
    · rw [if_neg (by omega), if_pos hjm] at he
      rw [hjm, update_self]
      exact Option.some.inj he
    rw [update_of_ne hjm, shiftUp_apply]
    -- the entries before it
    by_cases hlt : j < m
    · rw [if_pos hlt] at he
      rw [if_neg (by omega), update_of_ne hjm]
      exact hT.entry j e he
    rw [if_neg hlt, if_neg hjm] at he
    by_cases hnext : j = m + 1
    · -- the entry that was at `m`, which now comes after the new one
      rw [if_pos hnext] at he
      obtain ⟨x, hx, rfl⟩ := Option.map_eq_some_iff.mp he
      have hmem := List.mem_of_getElem? hx
      have hrange := htime x hmem
      have hx' := hlater x hx
      have hlen : m < es.length := (List.getElem?_eq_some_iff.mp hx).1
      rw [if_pos (by omega), hnext, Nat.add_sub_cancel, update_self, hT.entry m x hx,
        sub16_eq (by omega) (by omega)]
    · rw [if_neg hnext] at he
      have hlen : j - 1 < es.length := (List.getElem?_eq_some_iff.mp he).1
      rw [if_pos (by omega), update_of_ne (by omega)]
      exact hT.entry (j - 1) e he
  -- every entry has a function
  · intro e he
    obtain ⟨j, hj⟩ := List.mem_iff_getElem?.mp he
    rw [hinsert] at hj
    split at hj
    · exact hT.func e (List.mem_of_getElem? hj)
    · split at hj
      · obtain rfl := Option.some.inj hj
        rfl
      · split at hj
        · obtain ⟨x, hx, rfl⟩ := Option.map_eq_some_iff.mp hj
          exact hT.func x (List.mem_of_getElem? hx)
        · exact hT.func e (List.mem_of_getElem? hj)
  · -- the end moves with its words
    rw [insertEntry_length, update_of_ne (by omega), shiftUp_apply, if_pos (by omega),
      Nat.add_sub_cancel]
    rcases eq_or_ne es.length m with hlen | hlen
    · rw [hlen, update_self, ← hlen]
      exact hT.stop
    · rw [update_of_ne hlen]
      exact hT.stop
  · rw [insertEntry_length]
    exact hroom

/-! ### The loops of `clock` -/

/-- The entries that have been called go, the others keep their order. -/
theorem compact_eq (tab : ℕ → Callo φ) {ds : List (Callo φ)} {n : ℕ} (p1 p2 : ℕ)
    (hentry : ∀ j e, ds[j]? = some e → tab (p1 + j) = e) (hfunc : ∀ e ∈ ds, e.c_func.isSome)
    (hstop : (tab (p1 + ds.length)).c_func = none) (hlt : p2 < p1)
    (hfits : p1 + ds.length < NCALL) (hn : ds.length < n) :
    ∃ tab', compact n p1 p2 tab = some tab' ∧ (∀ j, j < p2 → tab' j = tab j) ∧
      (∀ j e, ds[j]? = some e → tab' (p2 + j) = e) ∧ (tab' (p2 + ds.length)).c_func = none := by
  induction ds generalizing n p1 p2 tab with
  | nil =>
    obtain ⟨n, rfl⟩ : ∃ k, n = k + 1 := ⟨n - 1, by simp only [List.length_nil] at hn; omega⟩
    simp only [List.length_nil, Nat.add_zero] at hstop hfits
    rw [compact, if_neg (by omega)]
    simp only [update_self, hstop, Option.isSome_none, Bool.false_eq_true, if_false]
    refine ⟨_, rfl, fun j hj => update_of_ne (by omega) _ _, by simp, ?_⟩
    simp
  | cons d ds ih =>
    obtain ⟨n, rfl⟩ : ∃ k, n = k + 1 := ⟨n - 1, by omega⟩
    simp only [List.length_cons] at hstop hfits hn
    have hhead : tab p1 = d := hentry 0 d rfl
    rw [compact, if_neg (by omega)]
    simp only [update_self, hhead, hfunc d List.mem_cons_self, if_true]
    rw [update_of_ne (by omega), hhead]
    -- the table with the first of the entries in its new place
    let tab₁ := update (update tab p2 { tab p2 with c_func := d.c_func }) p2
      { tab p2 with c_func := d.c_func, c_time := d.c_time, c_arg := d.c_arg }
    have htab₁ : ∀ j, j ≠ p2 → tab₁ j = tab j := fun j hj => by
      simp only [tab₁, update_of_ne hj]
    obtain ⟨tab', htab', hbelow, hent, hend⟩ := ih tab₁ (n := n) (p1 + 1) (p2 + 1)
      (fun j x hx => by
        rw [htab₁ _ (by omega), show p1 + 1 + j = p1 + (j + 1) from by omega]
        exact hentry (j + 1) x hx)
      (fun x hx => hfunc x (List.mem_cons_of_mem d hx))
      (by
        rw [htab₁ _ (by omega), show p1 + 1 + ds.length = p1 + (ds.length + 1) from by omega]
        exact hstop)
      (by omega) (by omega) (by omega)
    refine ⟨tab', htab', fun j hj => ?_, fun j x hx => ?_, ?_⟩
    · rw [hbelow j (by omega), htab₁ j (by omega)]
    · cases j with
      | zero =>
        obtain rfl : d = x := by simpa using hx
        rw [Nat.add_zero, hbelow p2 (by omega)]
        simp [tab₁]
      | succ j =>
        rw [show p2 + (j + 1) = p2 + 1 + j from by omega]
        exact hent j x hx
    · rw [List.length_cons, show p2 + (ds.length + 1) = p2 + 1 + ds.length from by omega]
      exact hend

/-- `clock` moves the entries down that are left. -/
theorem compact_table {tab : ℕ → Callo φ} {es : List (Callo φ)} {k : ℕ} (hT : Table tab es)
    (hk : 0 < k) (hle : k ≤ es.length) :
    ∃ tab', compact (NCALL + 1) k 0 tab = some tab' ∧ Table tab' (es.drop k) := by
  have hfits := hT.fits
  have hlen : k + (es.drop k).length = es.length := by
    rw [List.length_drop]
    omega
  obtain ⟨tab', htab', -, hentry, hstop⟩ := compact_eq tab (n := NCALL + 1) k 0
    (fun j e he => hT.entry (k + j) e (by rw [← List.getElem?_drop]; exact he))
    (fun e he => hT.func e (List.mem_of_mem_drop he)) (by rw [hlen]; exact hT.stop) hk
    (by omega) (by omega)
  refine ⟨tab', htab', fun j e he => ?_, fun e he => hT.func e (List.mem_of_mem_drop he), ?_, ?_⟩
  · rw [← Nat.zero_add j]
    exact hentry j e he
  · rw [← Nat.zero_add (es.drop k).length]
    exact hstop
  · omega

/-! ## Requests -/

/-- The call that was asked for. -/
def Req.call (r : Req φ) : φ × Word × ℕ := (r.f, r.arg, r.due)

/-- The requests for clock call `n`, in the order they were made. -/
def dueAt (rs : List (Req φ)) (n : ℕ) : List (Req φ) := rs.filter fun r => r.due = n

/-- The calls of the clock calls before `n`. -/
def callsBefore (made : List (Req φ)) (n : ℕ) : List (φ × Word × ℕ) :=
  (List.range n).flatMap fun i => (dueAt made i).map Req.call

/-- The calls before the next tick. -/
theorem callsBefore_succ (made : List (Req φ)) (n : ℕ) :
    callsBefore made (n + 1) = callsBefore made n ++ (dueAt made n).map Req.call := by
  simp [callsBefore, List.range_succ]

/-- A later request does not concern them. -/
theorem callsBefore_append {made : List (Req φ)} {r : Req φ} {n : ℕ} (h : n ≤ r.due) :
    callsBefore (made ++ [r]) n = callsBefore made n := by
  simp only [callsBefore]
  apply List.flatMap_congr
  intro i hi
  rw [List.mem_range] at hi
  rw [dueAt, List.filter_append, List.filter_singleton, decide_eq_false (by omega)]
  simp [dueAt]

/-- The requests that are due, with one more. -/
theorem dueAt_append (rs : List (Req φ)) (r : Req φ) (n : ℕ) :
    dueAt (rs ++ [r]) n = dueAt rs n ++ if r.due = n then [r] else [] := by
  rw [dueAt, List.filter_append, List.filter_singleton]
  by_cases h : r.due = n <;> simp [h, dueAt]

/-- The requests, with one more. -/
theorem mem_insertReq {r x : Req φ} {rs : List (Req φ)} :
    x ∈ insertReq r rs ↔ x = r ∨ x ∈ rs := by
  induction rs with
  | nil => simp [insertReq]
  | cons y rs ih =>
    rw [insertReq]
    split
    · rw [List.mem_cons, ih, List.mem_cons]
      tauto
    · simp

/-- There is one request more. -/
theorem insertReq_length (r : Req φ) (rs : List (Req φ)) :
    (insertReq r rs).length = rs.length + 1 := by
  induction rs with
  | nil => rfl
  | cons x rs ih =>
    rw [insertReq]
    split <;> simp [ih]

/-- A new request goes to its place in the order. -/
theorem Sorted.insertReq {base : ℕ} {rs : List (Req φ)} {r : Req φ} (h : Sorted base rs)
    (hr : base ≤ r.due ∧ r.due ≤ base + 32767) : Sorted base (insertReq r rs) := by
  refine ⟨?_, fun x hx => ?_⟩
  · have hpair := h.pairwise
    clear h
    induction rs with
    | nil => simp [Callout.insertReq]
    | cons x rs ih =>
      obtain ⟨hx, hrest⟩ := List.pairwise_cons.mp hpair
      rw [Callout.insertReq]
      split
      case isTrue hle =>
        refine List.pairwise_cons.mpr ⟨fun y hy => ?_, ih hrest⟩
        rcases mem_insertReq.mp hy with rfl | hy
        · exact hle
        · exact hx y hy
      case isFalse hlt =>
        refine List.pairwise_cons.mpr ⟨fun y hy => ?_, hpair⟩
        rcases List.mem_cons.mp hy with rfl | hy
        · omega
        · have := hx y hy
          omega
  · rcases mem_insertReq.mp hx with rfl | hx
    · exact hr
    · exact h.range x hx

/-- The requests for one clock call stay in the order they were made. -/
theorem dueAt_insertReq {rs : List (Req φ)} (h : rs.Pairwise fun a b => a.due ≤ b.due)
    (r : Req φ) (n : ℕ) :
    dueAt (insertReq r rs) n = dueAt rs n ++ if r.due = n then [r] else [] := by
  -- induction on the requests, the new one placed behind those due no later
  induction rs with
  | nil => by_cases hn : r.due = n <;> simp [insertReq, dueAt, hn]
  | cons x rs ih =>
    obtain ⟨hx, hrest⟩ := List.pairwise_cons.mp h
    rw [insertReq]
    split
    case isTrue hle =>
      have ih := ih hrest
      simp only [dueAt, List.filter_cons] at ih ⊢
      split
      · rw [ih, List.cons_append]
      · exact ih
    case isFalse hlt =>
      -- the new request comes first
      by_cases hn : r.due = n
      · -- nothing behind the new request is for the same clock call
        have hnone : dueAt (x :: rs) n = [] := by
          rw [dueAt, List.filter_eq_nil_iff]
          intro y hy
          rcases List.mem_cons.mp hy with rfl | hy
          · simp only [decide_eq_true_eq]
            omega
          · have := hx y hy
            simp only [decide_eq_true_eq]
            omega
        rw [hnone, if_pos hn]
        rw [dueAt] at hnone
        simp [dueAt, hn, hnone]
      · simp [dueAt, hn]

/-- Nor does a new request come before those that have been called. -/
theorem take_insertReq {rs : List (Req φ)} {r : Req φ} {k : ℕ} (hk : k ≤ rs.length)
    (h : ∀ x ∈ rs.take k, x.due ≤ r.due) : (insertReq r rs).take k = rs.take k := by
  induction rs generalizing k with
  | nil =>
    obtain rfl : k = 0 := by simpa using hk
    rfl
  | cons x rs ih =>
    cases k with
    | zero => rfl
    | succ k =>
      rw [List.take_succ_cons] at h ⊢
      rw [insertReq, if_pos (h x List.mem_cons_self), List.take_succ_cons,
        ih (by simpa using hk) fun y hy => h y (List.mem_cons_of_mem x hy)]

/-- The entries of the requests that are left. -/
theorem toEntries_drop {base k : ℕ} {rs : List (Req φ)} (h : ∀ r ∈ rs.take k, r.due = base) :
    (toEntries base rs).drop k = toEntries base (rs.drop k) := by
  induction k generalizing rs with
  | zero => rfl
  | succ k ih =>
    cases rs with
    | nil => rfl
    | cons r rs =>
      rw [List.take_succ_cons] at h
      have hr := h r List.mem_cons_self
      rw [toEntries, List.drop_succ_cons, List.drop_succ_cons, hr]
      exact ih fun x hx => h x (List.mem_cons_of_mem r hx)

/-- The entry after those that have been called has its time from now. -/
theorem toEntries_getElem? {base k : ℕ} {rs : List (Req φ)} (h : ∀ r ∈ rs.take k, r.due = base) :
    (toEntries base rs)[k]? = rs[k]?.map fun r => ⟨r.due - base, r.arg, some r.f⟩ := by
  have hdrop := congrArg (fun l => l[0]?) (toEntries_drop h)
  simp only [List.getElem?_drop, Nat.add_zero] at hdrop
  rw [hdrop]
  cases hrs : rs.drop k with
  | nil =>
    have : rs[k]? = none := by rw [← Nat.add_zero k, ← List.getElem?_drop, hrs]; rfl
    rw [this]
    rfl
  | cons r rest =>
    have : rs[k]? = some r := by rw [← Nat.add_zero k, ← List.getElem?_drop, hrs]; rfl
    rw [this]
    rfl

/-! ## The invariant -/

/-- The table has the requests `rs`; the first `k` of them have been called in this clock call. -/
structure Holds (s : CallSys φ) (rs : List (Req φ)) (k : ℕ) : Prop where
  inside : s.outside = false
  table : Table s.callout (toEntries s.now rs)
  sorted : Sorted s.now rs
  le_length : k ≤ rs.length
  called : ∀ r ∈ rs.take k, r.due = s.now
  pending : ∀ n, s.now < n → dueAt rs n = dueAt s.made n
  count : s.made.length + k = s.calls.length + rs.length

/-- The loop of `clock` is at entry `k`. -/
structure Firing (s : CallSys φ) (rs : List (Req φ)) (k : ℕ) : Prop extends Holds s rs k where
  current : dueAt rs s.now = dueAt s.made s.now
  calls : s.calls = callsBefore s.made s.now ++ (rs.take k).map Req.call

/-- No clock call is in progress. -/
structure Resting (s : CallSys φ) (rs : List (Req φ)) : Prop extends Holds s rs 0 where
  later : ∀ r ∈ rs, s.now < r.due
  calls : s.calls = callsBefore s.made (s.now + 1)

/-- Between two steps: at rest, or in the function of entry `p1`. -/
inductive Inv (s : CallSys φ) (rs : List (Req φ)) : Prop
  | resting (hidle : s.firing = none) (h : Resting s rs)
  | firing {p1 : ℕ} (hp1 : s.firing = some p1) (h : Firing s rs (p1 + 1))

/-- The entries in the table, those that have been called in this clock call included. -/
def CallSys.inTable (s : CallSys φ) : ℕ :=
  s.made.length - s.calls.length + (s.firing.map (· + 1)).getD 0

/-- There is room in the table for another entry. -/
def CallSys.Room (s : CallSys φ) : Prop := s.inTable + 1 < NCALL

/-- The entries in the table are those of the requests. -/
theorem Inv.inTable {s : CallSys φ} {rs : List (Req φ)} (h : Inv s rs) :
    s.inTable = rs.length := by
  cases h with
  | resting hidle h =>
    have hcount := h.count
    simp only [CallSys.inTable, hidle, Option.map_none, Option.getD_none]
    omega
  | firing hp1 h =>
    have hcount := h.count
    have hle := h.le_length
    simp only [CallSys.inTable, hp1, Option.map_some, Option.getD_some]
    omega

theorem inv_boot : Inv (boot : CallSys φ) [] := by
  refine .resting rfl ⟨⟨rfl, ⟨by simp [toEntries], by simp [toEntries], rfl, ?_⟩,
    ⟨List.Pairwise.nil, by simp⟩, le_refl _, by simp, fun _ _ => rfl, rfl⟩, by simp, ?_⟩
  · show 0 < NCALL
    decide
  · simp [boot, callsBefore, dueAt, List.range_succ]

/-! ### A request -/

section

variable {s : CallSys φ} {rs : List (Req φ)} {k t : ℕ} {f : φ} {arg : Word}

/-- The state after a request for which there is room. -/
theorem Holds.timeout {tab : ℕ → Callo φ} (h : Holds s rs k) (ht : 1 ≤ t) (ht' : t ≤ 32767)
    (htab : Table tab (insertEntry f arg t (toEntries s.now rs))) :
    Holds { s with callout := tab, made := s.made ++ [⟨f, arg, s.now + t⟩] }
      (insertReq ⟨f, arg, s.now + t⟩ rs) k := by
  have hentries : insertEntry f arg ((s.now + t : ℕ) - s.now) (toEntries s.now rs) =
      toEntries s.now (insertReq ⟨f, arg, s.now + t⟩ rs) := insertEntry_eq ⟨f, arg, s.now + t⟩
  rw [show (((s.now + t : ℕ) : ℤ) - s.now) = t from by omega] at hentries
  have htake := take_insertReq (r := ⟨f, arg, s.now + t⟩) h.le_length fun x hx => by
    rw [h.called x hx]
    exact Nat.le_add_right _ _
  refine ⟨h.inside, hentries ▸ htab, h.sorted.insertReq ⟨?_, ?_⟩, ?_, ?_, ?_, ?_⟩
  · exact Nat.le_add_right _ _
  · simp only
    omega
  · rw [insertReq_length]
    have := h.le_length
    omega
  · rw [htake]
    exact h.called
  · intro n hn
    rw [dueAt_insertReq h.sorted.pairwise, dueAt_append, h.pending n hn]
  · have hcount := h.count
    rw [insertReq_length]
    simp only [List.length_append, List.length_singleton]
    omega

/-- `timeout` adds a request. -/
theorem Inv.timeout {tab : ℕ → Callo φ} (h : Inv s rs) (ht : 1 ≤ t) (ht' : t ≤ 32767)
    (htab : Table tab (insertEntry f arg t (toEntries s.now rs))) :
    Inv { s with callout := tab, made := s.made ++ [⟨f, arg, s.now + t⟩] }
      (insertReq ⟨f, arg, s.now + t⟩ rs) := by
  cases h with
  | resting hidle h =>
    refine .resting hidle ⟨h.toHolds.timeout ht ht' htab, fun r hr => ?_, ?_⟩
    · rcases mem_insertReq.mp hr with rfl | hr
      · simp only
        omega
      · exact h.later r hr
    · rw [callsBefore_append (by simp only; omega)]
      exact h.calls
  | firing hp1 h =>
    refine .firing hp1 ⟨h.toHolds.timeout ht ht' htab, ?_, ?_⟩
    · rw [dueAt_insertReq h.sorted.pairwise, dueAt_append, h.current]
    · rw [callsBefore_append (by simp only; omega), take_insertReq h.le_length fun x hx => by
        rw [h.called x hx]
        exact Nat.le_add_right _ _]
      exact h.calls

/-- A request leaves the table exactly if there is no room. -/
theorem Inv.timeout_step {s' : CallSys φ} (h : Inv s rs) (ht : 1 ≤ t) (ht' : t ≤ 32767)
    (hs : step s (.timeout f arg t) = some s') :
    (s.Room → ∃ rs', Inv s' rs') ∧ (¬ s.Room → s'.outside = true) := by
  have hholds : ∃ k, Holds s rs k := by
    cases h with
    | resting _ h => exact ⟨_, h.toHolds⟩
    | firing _ h => exact ⟨_, h.toHolds⟩
  obtain ⟨k, hk⟩ := hholds
  have hroom : s.Room ↔ (toEntries s.now rs).length + 1 < NCALL := by
    rw [CallSys.Room, h.inTable, toEntries_length]
  obtain ⟨hin, hout⟩ := timeout_eq f arg hk.table (toEntries_time hk.sorted)
    (show (0 : ℤ) ≤ t by omega) (by omega)
  simp only [step] at hs
  rw [if_neg (by simp [hk.inside])] at hs
  rw [hroom]
  refine ⟨fun hfits => ?_, fun hfull => ?_⟩
  · obtain ⟨tab, htab, hT⟩ := hin hfits
    rw [htab] at hs
    cases hs
    exact ⟨_, h.timeout ht ht' hT⟩
  · rw [hout hfull] at hs
    cases hs
    rfl

/-! ### A clock call -/

/-- The entries that have been called go. -/
theorem Firing.finish (h : Firing s rs k) (hk : 0 < k)
    (hlater : ∀ r ∈ rs.drop k, s.now < r.due) : ∃ rs', Inv (s.finish k) rs' := by
  obtain ⟨tab, htab, hT⟩ := compact_table h.table hk (by rw [toEntries_length]; exact h.le_length)
  rw [toEntries_drop h.called] at hT
  have hfinish : s.finish k = { s with callout := tab, firing := none } := by
    simp only [CallSys.finish, htab]
  -- the requests for this clock call are those that have been called
  have hsplit : ∀ n, dueAt rs n = dueAt (rs.take k) n ++ dueAt (rs.drop k) n := fun n => by
    rw [dueAt, dueAt, dueAt, ← List.filter_append, List.take_append_drop]
  have hnow : dueAt s.made s.now = rs.take k := by
    rw [← h.current, hsplit, dueAt, dueAt, List.filter_eq_self.mpr fun r hr => by
      simpa using h.called r hr, List.filter_eq_nil_iff.mpr fun r hr => by
      have := hlater r hr
      simp only [decide_eq_true_eq]
      omega, List.append_nil]
  refine ⟨rs.drop k, ?_⟩
  rw [hfinish]
  refine .resting rfl ⟨⟨h.inside, hT, ⟨?_, fun r hr => ?_⟩, Nat.zero_le _, by simp, fun n hn => ?_, ?_⟩,
    hlater, ?_⟩
  · exact h.sorted.pairwise.sublist (List.drop_sublist k rs)
  · exact h.sorted.range r (List.mem_of_mem_drop hr)
  · have hn : s.now < n := hn
    rw [← h.pending n hn, hsplit n]
    have hnone : dueAt (rs.take k) n = [] := List.filter_eq_nil_iff.mpr fun r hr => by
      have := h.called r hr
      simp only [decide_eq_true_eq]
      omega
    rw [hnone, List.nil_append]
  · have hcount := h.count
    have hle := h.le_length
    rw [List.length_drop]
    show s.made.length + 0 = s.calls.length + (rs.length - k)
    omega
  · rw [callsBefore_succ, hnow]
    exact h.calls

/-- The loop at entry `k`, which is due if nothing has been called yet. -/
theorem Firing.fire (h : Firing s rs k) (hk : k = 0 → ∃ r, rs[0]? = some r ∧ r.due = s.now) :
    ∃ rs', Inv (s.fire k) rs' := by
  -- the loop stays in the table
  have hfits := h.table.fits
  rw [toEntries_length] at hfits
  have hle := h.le_length
  have hentry := toEntries_getElem? h.called
  unfold CallSys.fire
  rw [if_neg (by omega)]
  rcases hr : rs[k]? with _ | r
  · -- the end of the table
    have hlen : rs.length = k := by
      have := List.getElem?_eq_none_iff.mp hr
      omega
    have hstop := h.table.stop
    rw [toEntries_length, hlen] at hstop
    rw [hstop]
    have hpos : 0 < k := by
      rcases Nat.eq_zero_or_pos k with rfl | hpos
      · obtain ⟨r, hr', -⟩ := hk rfl
        rw [hr] at hr'
        cases hr'
      · exact hpos
    exact h.finish hpos (by simp [← hlen])
  · rw [hr, Option.map_some] at hentry
    have htab := h.table.entry k _ hentry
    have hrange := h.sorted.range r (List.mem_of_getElem? hr)
    have hlt : k < rs.length := (List.getElem?_eq_some_iff.mp hr).1
    -- the entry at `k`: due now, or later
    rw [htab]
    simp only
    split
    case isTrue hdue =>
      have hnow : r.due = s.now := by omega
      -- one more request has been called
      have htake : rs.take (k + 1) = rs.take k ++ [r] := by
        rw [List.take_add_one, hr, Option.toList_some]
      refine ⟨rs, .firing rfl ⟨⟨h.inside, h.table, h.sorted, hlt, ?_, h.pending, ?_⟩, h.current, ?_⟩⟩
      · rw [htake]
        intro x hx
        rcases List.mem_append.mp hx with hx | hx
        · exact h.called x hx
        · rw [List.mem_singleton.mp hx]
          exact hnow
      · have hcount := h.count
        simp only [List.length_append, List.length_singleton]
        omega
      · rw [htake, List.map_append, ← List.append_assoc, ← h.calls]
        simp [Req.call, hnow]
    case isFalse hlate =>
      -- not the first entry: that one is due
      have hpos : 0 < k := by
        rcases Nat.eq_zero_or_pos k with rfl | hpos
        · obtain ⟨x, hx, hdue⟩ := hk rfl
          rw [hr] at hx
          obtain rfl := Option.some.inj hx
          omega
        · exact hpos
      refine h.finish hpos fun x hx => ?_
      -- the requests left are due later, since they are in order
      have hdrop : rs.drop k = r :: rs.drop (k + 1) := by
        rw [List.drop_eq_getElem_cons hlt]
        congr 1
        exact (List.getElem?_eq_some_iff.mp hr).2
      have hpair := h.sorted.pairwise.sublist (List.drop_sublist k rs)
      rw [hdrop, List.pairwise_cons] at hpair
      rw [hdrop] at hx
      rcases List.mem_cons.mp hx with rfl | hx
      · omega
      · have := hpair.1 x hx
        omega

end

section

variable {s s' : CallSys φ} {rs : List (Req φ)}

/-- The function of an entry returns. -/
theorem Firing.ret {p1 : ℕ} (h : Firing s rs (p1 + 1)) : ∃ rs', Inv (s.fire (p1 + 1)) rs' :=
  h.fire fun h0 => absurd h0 (Nat.succ_ne_zero p1)

/-- The first entry is counted down. -/
theorem toEntries_next {now : ℕ} {r : Req φ} {rest : List (Req φ)} :
    toEntries (now + 1) (r :: rest) =
      ⟨r.due - now - 1, r.arg, some r.f⟩ :: toEntries r.due rest := by
  rw [toEntries]
  congr 2
  push_cast
  ring

/-- A clock call. -/
theorem Resting.clock (h : Resting s rs) (hidle : s.firing = none) : ∃ rs', Inv s.clock rs' := by
  have hnow : ∀ n, s.now + 1 < n → dueAt rs n = dueAt s.made n :=
    fun n hn => h.pending n (by omega)
  have hcurrent : dueAt rs (s.now + 1) = dueAt s.made (s.now + 1) := h.pending _ (by omega)
  have hsorted : Sorted (s.now + 1) rs :=
    ⟨h.sorted.pairwise, fun r hr => ⟨h.later r hr, by have := h.sorted.range r hr; omega⟩⟩
  cases rs with
  | nil =>
    -- no entry: the clock ticks, and that is all
    have hstop : (s.callout 0).c_func = none := h.table.stop
    have hclock : s.clock = { s with now := s.now + 1 } := by
      simp only [CallSys.clock]
      rw [if_pos (by simp [hstop])]
    refine ⟨[], ?_⟩
    rw [hclock]
    refine .resting hidle ⟨⟨h.inside, h.table, hsorted, le_refl _, by simp, hnow, h.count⟩,
      by simp, ?_⟩
    show s.calls = callsBefore s.made (s.now + 1 + 1)
    rw [callsBefore_succ, ← hcurrent, h.calls]
    simp [dueAt]
  | cons r rest =>
    have hr := h.sorted.range r List.mem_cons_self
    have hlater := h.later r List.mem_cons_self
    -- the first entry counts for all behind it
    have hhead : s.callout 0 = ⟨r.due - s.now, r.arg, some r.f⟩ :=
      h.table.entry 0 _ rfl
    have hfirst : firstNonZero s.callout (NCALL + 1) 0 = some 0 := by
      rw [firstNonZero, if_neg (by decide), if_neg (by rw [hhead]; simp only; omega)]
    let tab := update s.callout 0 { s.callout 0 with c_time := sub16 (s.callout 0).c_time 1 }
    have htab : tab 0 = ⟨r.due - s.now - 1, r.arg, some r.f⟩ := by
      simp only [tab, update_self, hhead]
      rw [sub16_eq (by omega) (by omega)]
    have htable : Table tab (toEntries (s.now + 1) (r :: rest)) := by
      have hT := h.table
      rw [toEntries] at hT
      rw [toEntries_next]
      refine ⟨fun j e he => ?_, fun e he => ?_, ?_, ?_⟩
      · cases j with
        | zero =>
          rw [htab]
          exact Option.some.inj he
        | succ j =>
          rw [show tab (j + 1) = s.callout (j + 1) from update_of_ne (by omega) _ _]
          exact hT.entry (j + 1) e he
      · rcases List.mem_cons.mp he with rfl | he
        · rfl
        · exact hT.func e (List.mem_cons_of_mem _ he)
      · rw [List.length_cons, show tab (_ + 1) = s.callout (_ + 1) from update_of_ne (by omega) _ _]
        exact hT.stop
      · exact hT.fits
    have hclock : s.clock =
        if (tab 0).c_time ≤ 0 then
          CallSys.fire { s with now := s.now + 1, callout := tab } 0
        else { s with now := s.now + 1, callout := tab } := by
      simp only [CallSys.clock]
      rw [if_neg (by simp [hhead])]
      simp only [hfirst]
      rfl
    have hholds : Holds { s with now := s.now + 1, callout := tab } (r :: rest) 0 :=
      ⟨h.inside, htable, hsorted, Nat.zero_le _, by simp, hnow, h.count⟩
    rw [hclock, htab]
    simp only
    split
    case isTrue hdue =>
      -- it is due: the calls of this tick begin
      have hfiring : Firing { s with now := s.now + 1, callout := tab } (r :: rest) 0 :=
        ⟨hholds, hcurrent, by simp [h.calls]⟩
      exact hfiring.fire fun _ => ⟨r, rfl, by show r.due = s.now + 1; omega⟩
    case isFalse hlate =>
      -- it is not, so none of the others is
      have hall : ∀ x ∈ r :: rest, s.now + 1 < x.due := fun x hx => by
        rcases List.mem_cons.mp hx with rfl | hx
        · omega
        · have := (List.pairwise_cons.mp h.sorted.pairwise).1 x hx
          omega
      refine ⟨r :: rest, .resting hidle ⟨hholds, hall, ?_⟩⟩
      show s.calls = callsBefore s.made (s.now + 1 + 1)
      have hnone : dueAt (r :: rest) (s.now + 1) = [] := List.filter_eq_nil_iff.mpr fun x hx => by
        have := hall x hx
        simp only [decide_eq_true_eq]
        omega
      rw [callsBefore_succ, ← hcurrent, hnone, h.calls]
      simp

/-- Requests are for a positive `int`. -/
def Positive : CallAct φ → Prop
  | .timeout _ _ t => 1 ≤ t ∧ t ≤ 32767
  | _ => True

/-- Requests are made only when there is room in the table for another entry besides those that
wait and those that this clock call has called. -/
def Ok (s : CallSys φ) (a : CallAct φ) : Prop :=
  Positive a ∧ ∀ f arg t, a = .timeout f arg t → s.Room

/-- Every step keeps the table. -/
theorem Inv.step {a : CallAct φ} (h : Inv s rs) (hok : Ok s a) (hs : step s a = some s') :
    ∃ rs', Inv s' rs' := by
  cases a with
  | timeout f arg t =>
    exact (h.timeout_step hok.1.1 hok.1.2 hs).1 (hok.2 f arg t rfl)
  | clock =>
    obtain ⟨hguard, hs⟩ := Option.ite_none_left_eq_some.mp hs
    cases hs
    cases h with
    | resting hidle h => exact h.clock hidle
    | firing hp1 h => simp [hp1] at hguard
  | ret =>
    obtain ⟨-, hs⟩ := Option.ite_none_left_eq_some.mp hs
    obtain ⟨p1, hp1, rfl⟩ := Option.map_eq_some_iff.mp hs
    cases h with
    | resting hidle h => simp [hidle] at hp1
    | firing hp1' h =>
      obtain rfl : p1 = _ := Option.some.inj (hp1.symm.trans hp1')
      exact h.ret

theorem inv_of_reachable (hs : Reachable step Ok boot s) : ∃ rs, Inv s rs :=
  hs.invariant (P := fun s : CallSys φ => ∃ rs, Inv s rs) ⟨[], inv_boot⟩
    fun _ _ _ ⟨_, h⟩ hok hstep => h.step hok hstep

/-- The calls so far are those that were asked for: of every clock call that is over, all the
requests for it in the order they were made, and of the one in progress the first of them. -/
structure OnTime (s : CallSys φ) : Prop where
  inside : s.outside = false
  resting : s.firing = none → s.calls = callsBefore s.made (s.now + 1)
  firing : s.firing ≠ none → ∃ k, s.calls =
    callsBefore s.made s.now ++ ((dueAt s.made s.now).take k).map Req.call

theorem Inv.onTime (h : Inv s rs) : OnTime s := by
  cases h with
  | resting hidle h => exact ⟨h.inside, fun _ => h.calls, fun hne => absurd hidle hne⟩
  | @firing p1 hp1 h =>
    refine ⟨h.inside, fun hnone => by simp [hp1] at hnone, fun _ => ⟨p1 + 1, ?_⟩⟩
    rw [h.calls, ← h.current]
    congr 2
    -- the entries that have been called are the first of those that are due
    have hcalled := h.called
    have hle := h.le_length
    have hself : dueAt (rs.take (p1 + 1)) s.now = rs.take (p1 + 1) :=
      List.filter_eq_self.mpr fun r hr => by simpa using hcalled r hr
    have hsplit : dueAt rs s.now = rs.take (p1 + 1) ++ dueAt (rs.drop (p1 + 1)) s.now := by
      nth_rewrite 1 [← hself]
      rw [dueAt, dueAt, dueAt, ← List.filter_append, List.take_append_drop]
    rw [hsplit, List.take_left' (by rw [List.length_take]; omega)]

/-- Timeouts fire once, on time and in order, and stay in the table, in every run whose requests
find room in it; a request that finds none leaves the table. -/
theorem onTime_of_reachable (hs : Reachable step Ok boot s) :
    OnTime s ∧ ∀ f arg t s', Positive (.timeout f arg t : CallAct φ) →
      step s (.timeout f arg t) = some s' → (s'.outside = false ↔ s.Room) := by
  obtain ⟨rs, h⟩ := inv_of_reachable hs
  refine ⟨h.onTime, fun f arg t s' hpos hstep => ⟨fun hin => ?_, fun hroom => ?_⟩⟩
  · by_contra hfull
    rw [(h.timeout_step hpos.1 hpos.2 hstep).2 hfull] at hin
    cases hin
  · obtain ⟨rs', h'⟩ := (h.timeout_step hpos.1 hpos.2 hstep).1 hroom
    exact h'.onTime.inside

/-- Requests that wait for their call. -/
def CallSys.waiting (s : CallSys φ) : ℕ := s.made.length - s.calls.length

/-- `Positive`, with less than `NCALL` requests waiting at any time. -/
def fewWaiting (s : CallSys φ) : CallAct φ → Bool
  | .timeout _ _ t => 1 ≤ t ∧ t ≤ 32767 ∧ s.waiting + 1 < NCALL
  | _ => true

end

/-- As many requests as can wait, all for the same clock call; the first function that is called
makes another one. -/
def rearm : List (CallAct Unit) := List.replicate 19 (.timeout () 0 1) ++ [.clock, .timeout () 0 1]

/-- Then the table is left although no more than 19 requests ever wait. -/
theorem not_onTime_of_reachable : ∃ s : CallSys Unit,
    Reachable step (fun s a => fewWaiting s a = true) boot s ∧ s.outside = true ∧ ¬ OnTime s := by
  have hrun : (checkedSteps step fewWaiting rearm boot).any (fun s => s.outside) = true := by
    decide +kernel
  obtain ⟨s, hs, hout⟩ := (Option.any_eq_true _ _).mp hrun
  refine ⟨s, Reachable.refl.of_checkedSteps (fun _ _ h => h) hs, hout, fun h => ?_⟩
  rw [h.inside] at hout
  cases hout

/-- `Ok` as a test. -/
def checkOk (s : CallSys φ) : CallAct φ → Bool
  | .timeout _ _ t => 1 ≤ t ∧ t ≤ 32767 ∧ s.inTable + 1 < NCALL
  | _ => true

theorem ok_of_checkOk (s : CallSys φ) (a : CallAct φ) (h : checkOk s a = true) : Ok s a := by
  cases a with
  | timeout f arg t =>
    have h : 1 ≤ t ∧ t ≤ 32767 ∧ s.inTable + 1 < NCALL := of_decide_eq_true h
    exact ⟨⟨h.1, h.2.1⟩, fun _ _ _ _ => h.2.2⟩
  | clock => exact ⟨trivial, by simp⟩
  | ret => exact ⟨trivial, by simp⟩

/-- Three requests, the last of them made by the second one's function for the same clock call as
the first. -/
def requests : List (CallAct Bool) :=
  [.timeout true 7 3, .timeout false 8 1, .clock, .timeout false 9 2, .ret, .clock, .clock, .ret,
    .ret]

/-- Three requests, two of them for the same tick. -/
theorem onTime_of_reachable_requests : ∃ s : CallSys Bool,
    s.calls = [(false, 8, 1), (true, 7, 3), (false, 9, 3)] ∧ OnTime s := by
  have hrun : (checkedSteps step checkOk requests boot).any
      (fun s => s.calls = [(false, 8, 1), (true, 7, 3), (false, 9, 3)]) = true := by
    decide +kernel
  obtain ⟨s, hs, hcalls⟩ := (Option.any_eq_true _ _).mp hrun
  exact ⟨s, of_decide_eq_true hcalls,
    (onTime_of_reachable (Reachable.refl.of_checkedSteps ok_of_checkOk hs)).1⟩

end UnixV6.Callout
