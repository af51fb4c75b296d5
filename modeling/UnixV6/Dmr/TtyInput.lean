import UnixV6.Dmr.TtyOutput

/-!
# Input from the terminal

What the routines of the terminal do to the raw queue, and that `t_delct` counts its delimiters.
-/

open Function

namespace UnixV6.Tty

variable {P : Set ℕ} {t t' : Tty} {lay : TtyQ → Layout} {free : List ℕ} {be : Backend}

/-! ## Echo -/

/-- Between `t` and `t'` there was output only. -/
structure OutputOnly (P : Set ℕ) (t t' : Tty) : Prop where
  wf : Wf P t'
  t_flags : t'.t_flags = t.t_flags
  t_delct : t'.t_delct = t.t_delct
  t_erase : t'.t_erase = t.t_erase
  t_kill : t'.t_kill = t.t_kill
  canonb : t'.canonb = t.canonb
  carrier : t'.is CARR_ON = t.is CARR_ON
  pending : ∀ i ≠ .t_outq, t'.cl.pending i = t.cl.pending i

/-- Two pieces that only output. -/
theorem OutputOnly.trans {t₁ t₂ t₃ : Tty} (h : OutputOnly P t₁ t₂) (h' : OutputOnly P t₂ t₃) :
    OutputOnly P t₁ t₃ where
  wf := h'.wf
  t_flags := h'.t_flags.trans h.t_flags
  t_delct := h'.t_delct.trans h.t_delct
  t_erase := h'.t_erase.trans h.t_erase
  t_kill := h'.t_kill.trans h.t_kill
  canonb := h'.canonb.trans h.canonb
  carrier := h'.carrier.trans h.carrier
  pending i hi := (h'.pending i hi).trans (h.pending i hi)

theorem OutputOnly.refl (h : Wf P t) : OutputOnly P t t :=
  ⟨h, rfl, rfl, rfl, rfl, rfl, rfl, fun _ _ => rfl⟩

theorem Emits.outputOnly (h : Emits P t t') : OutputOnly P t t' := by
  have hframe := h.frame
  refine ⟨h.wf, ?_, ?_, ?_, ?_, ?_, ?_, h.pending⟩ <;> rw [hframe]
  rfl

/-- `TIMEOUT` is not the bit of the carrier. -/
theorem carrier_timeout (b : Byte) :
    ((b ||| TIMEOUT) &&& CARR_ON != 0) = (b &&& CARR_ON != 0) ∧
      ((b &&& ~~~TIMEOUT) &&& CARR_ON != 0) = (b &&& CARR_ON != 0) := by
  revert b
  decide

/-- `ttstart` returns. -/
theorem ttstart_outputOnly (be : Backend) (h : Wf P t) :
    ∃ t', t.ttstart be = some t' ∧ OutputOnly P t t' := by
  obtain ⟨lay, free, hinv⟩ := h
  by_cases hready : Ready t
  swap
  · exact ⟨t, ttstart_of_not_ready be hready, OutputOnly.refl ⟨lay, free, hinv⟩⟩
  rcases hp : t.cl.pending .t_outq with - | ⟨c, cs⟩
  · exact ⟨t, ttstart_nil be hinv hready hp, OutputOnly.refl ⟨lay, free, hinv⟩⟩
  obtain ⟨-, hpending, -, L, free', hinv', -⟩ := hinv.getc_cons hp
  have hother : ∀ i ≠ .t_outq, (t.cl.getc .t_outq).2.pending i = t.cl.pending i := by
    intro i hi
    rw [hpending, update_of_ne hi]
  rcases Nat.lt_or_ge 0o177 c.toNat with hc | hc
  · refine ⟨_, ttstart_delay be hinv hready hp hc, ⟨_, free', hinv'⟩, rfl, rfl, rfl, rfl, rfl, ?_,
      hother⟩
    exact (carrier_timeout t.t_state).1
  cases be with
  | uart =>
    exact ⟨_, ttstart_uart hinv hready hp hc, ⟨_, free', hinv'⟩, rfl, rfl, rfl, rfl, rfl, rfl,
      hother⟩
  | bios =>
    obtain ⟨cl, lay', free'', hrun, h', -, hother'⟩ := ttstart_bios hinv hready hp hc
    exact ⟨_, hrun, ⟨_, free'', h'⟩, rfl, rfl, rfl, rfl, rfl, rfl, hother'⟩

/-- `ttyoutput` only outputs. -/
theorem outputOnly_of_ttyoutput {fuel : ℕ} {c : Byte} (h : Wf P t)
    (hrun : t.ttyoutput fuel c = some t') : OutputOnly P t t' :=
  ((emits_of_fuel fuel).1 c t t' h hrun).outputOnly

/-- None of the calls for output does more. -/
theorem outStep_outputOnly {a : OutAct} (h : Wf P t) (hs : outStep be t a = some t') :
    OutputOnly P t t' := by
  -- each call but `ttyoutput` is `ttstart` in a state with the same input
  have hstart : ∀ t₁, OutputOnly P t t₁ → t₁.ttstart be = some t' → OutputOnly P t t' := by
    intro t₁ h₁ hs
    obtain ⟨t₂, hrun, hout⟩ := ttstart_outputOnly be h₁.wf
    rw [hrun] at hs
    rw [← Option.some.inj hs]
    exact h₁.trans hout
  cases a with
  | ttyoutput fuel c => exact outputOnly_of_ttyoutput h hs
  | ttstart => exact hstart t (OutputOnly.refl h) hs
  | ttrstrt =>
    rw [outStep, ttrstrt] at hs
    split at hs
    · exact absurd hs (by simp)
    · refine hstart _ ?_ hs
      exact ⟨h, rfl, rfl, rfl, rfl, rfl, (carrier_timeout t.t_state).2, fun _ _ => rfl⟩
  | kltxintr =>
    rw [outStep, kltxintr] at hs
    refine hstart _ ?_ hs
    exact ⟨h, rfl, rfl, rfl, rfl, rfl, rfl, fun _ _ => rfl⟩

/-! ## Flushing -/

/-- The loop empties the queue. -/
theorem flushq_eq {i : TtyQ} {cs : List Byte} {n : ℕ} (h : Inv P t.cl lay free)
    (hp : t.cl.pending i = cs) (hn : cs.length < n) :
    ∃ cl lay' free', t.flushq i n = some { t with cl := cl } ∧ Inv P cl lay' free' ∧
      cl.pending = update t.cl.pending i [] := by
  obtain ⟨n, rfl⟩ : ∃ m, n = m + 1 := ⟨n - 1, by omega⟩
  induction cs generalizing t lay free n with
  | nil =>
    refine ⟨t.cl, lay, free, ?_, h, by rw [← hp, update_eq_self]⟩
    simp only [flushq, Tty.getc, h.getc_nil hp]
    rfl
  | cons c cs ih =>
    obtain ⟨n, rfl⟩ : ∃ m, n = m + 1 := ⟨n - 1, by simp only [List.length_cons] at hn; omega⟩
    obtain ⟨hret, hpending, -, L, free₁, h₁, -⟩ := h.getc_cons hp
    have hpos : (0 : ℤ) ≤ c.toNat := by omega
    obtain ⟨cl, lay', free', hrun, h', hpending'⟩ :=
      ih (t := { t with cl := (t.cl.getc i).2 }) h₁ (by rw [hpending, update_self]) n
        (by simp only [List.length_cons] at hn; omega)
    refine ⟨cl, lay', free', ?_, h', by rw [hpending', hpending, update_idem]⟩
    rw [flushq]
    simp only [Tty.getc, hret, if_pos hpos]
    exact hrun

/-- `flushq` takes all characters out of a queue. -/
theorem flushq_rounds (i : TtyQ) (h : Inv P t.cl lay free) :
    ∃ cl lay' free', t.flushq i (t.rounds i) = some { t with cl := cl } ∧ Inv P cl lay' free' ∧
      cl.pending = update t.cl.pending i [] := by
  refine flushq_eq h rfl ?_
  simp only [rounds, count, h.cc_eq]
  omega

/-- `flushtty` returns, and then the three queues are empty. -/
theorem flushtty_eq (h : Wf P t) : ∃ cl, t.flushtty = some { t with cl := cl, t_delct := 0 } ∧
    (∃ lay free, Inv P cl lay free) ∧
    cl.pending = update (update (update t.cl.pending .t_canq []) .t_outq []) .t_rawq [] := by
  obtain ⟨lay, free, h⟩ := h
  obtain ⟨cl₁, lay₁, free₁, hrun₁, h₁, hp₁⟩ := flushq_rounds .t_canq h
  obtain ⟨cl₂, lay₂, free₂, hrun₂, h₂, hp₂⟩ := flushq_rounds (t := { t with cl := cl₁ }) .t_outq h₁
  obtain ⟨cl₃, lay₃, free₃, hrun₃, h₃, hp₃⟩ := flushq_rounds (t := { t with cl := cl₂ }) .t_rawq h₂
  refine ⟨cl₃, ?_, ⟨lay₃, free₃, h₃⟩, by rw [hp₃, hp₂, hp₁]⟩
  simp only [flushtty, Option.bind_eq_bind, hrun₁, hrun₂, hrun₃, Option.bind_some]

/-! ## The loop of `canon` -/

/-- The loop over these characters of the raw queue, from the place `bp` of the buffer `canonb` on:
how it ends, where, the buffer, and what is left in the queue. -/
def scan (t : Tty) : List Byte → ℕ → (ℕ → Byte) → CanonEnd × ℕ × (ℕ → Byte) × List Byte
  | [], bp, canonb => (.empty, bp, canonb, [])
  | c :: cs, bp, canonb =>
    if c = 0o377 then (.delimiter, bp, canonb, cs)
    else
      match { t with canonb := canonb }.edit bp c.toNat with
      | (bp, none) => scan t cs bp canonb
      | (bp, some c) =>
        let canonb := update canonb bp (BitVec.ofInt 8 c)
        if CANBSIZ ≤ bp + 1 then (.full, bp + 1, canonb, cs) else scan t cs (bp + 1) canonb

/-- Only the modes and the special characters of the terminal matter. -/
theorem scan_with (t : Tty) (cl : TtySys TtyQ) (buf : ℕ → Byte) (cs : List Byte) (bp : ℕ)
    (canonb : ℕ → Byte) :
    scan { t with cl := cl, canonb := buf } cs bp canonb = scan t cs bp canonb := by
  have h : ∀ bp c canonb, { t with cl := cl, canonb := canonb }.edit bp c =
      { t with canonb := canonb }.edit bp c := fun _ _ _ => rfl
  induction cs generalizing bp canonb with
  | nil => rfl
  | cons c cs ih => simp only [scan, h, ih]

/-- The loop takes from the queue what the scan does, and ends as it does. -/
theorem canonLoop_eq {cs : List Byte} {n : ℕ} (bp : ℕ) (h : Inv P t.cl lay free)
    (hp : t.cl.pending .t_rawq = cs) (hn : cs.length < n) :
    let r := scan t cs bp t.canonb
    ∃ cl L free', t.canonLoop n bp = some (r.1, r.2.1, { t with
        cl := cl
        canonb := r.2.2.1
        t_delct := if r.1 = .delimiter then t.t_delct - 1 else t.t_delct }) ∧
      Inv P cl (update lay .t_rawq L) free' ∧
      cl.pending = update t.cl.pending .t_rawq r.2.2.2 ∧
      (r.2.2.2 ≠ [] → slack (cl.q .t_rawq) = slack (t.cl.q .t_rawq)) ∧
      L.bs.length + free'.length = (lay .t_rawq).bs.length + free.length := by
  obtain ⟨n, rfl⟩ : ∃ m, n = m + 1 := ⟨n - 1, by omega⟩
  -- induction on the characters left in the queue: each turn takes one
  induction cs generalizing t lay free n bp with
  | nil =>
    refine ⟨t.cl, lay .t_rawq, free, ?_, by rwa [update_eq_self], ?_, fun _ => rfl, rfl⟩
    · simp only [canonLoop, Tty.getc, h.getc_nil hp]
      rfl
    · show t.cl.pending = update t.cl.pending .t_rawq []
      rw [← hp, update_eq_self]
  | cons c cs ih =>
    -- the fuel lasts, since it exceeds the characters left
    obtain ⟨n, rfl⟩ : ∃ m, n = m + 1 := ⟨n - 1, by simp only [List.length_cons] at hn; omega⟩
    obtain ⟨hret, hpending, -, L₁, free₁, h₁, hblocks₁⟩ := h.getc_cons hp
    have hneg : ¬(c.toNat : ℤ) < 0 := by omega
    have hslack₁ : cs ≠ [] → slack ((t.cl.getc .t_rawq).2.q .t_rawq) = slack (t.cl.q .t_rawq) := by
      intro hne
      obtain ⟨d, cs', rfl⟩ := List.exists_cons_of_ne_nil hne
      exact h.getc_slack hp
    -- the delimiter test is on the character as an `int`
    have hcast : ((c.toNat : ℤ) = 0o377) ↔ c = 0o377 := by
      rw [← BitVec.toNat_inj]
      show (c.toNat : ℤ) = 0o377 ↔ c.toNat = 0o377
      omega
    have hcs : cs.length < n + 1 := by
      simp only [List.length_cons] at hn
      omega
    have hedit : { t with cl := (t.cl.getc .t_rawq).2 }.edit bp c.toNat =
        t.edit bp c.toNat := rfl
    rw [canonLoop]
    simp only [Tty.getc, hret, if_neg hneg, hcast, scan]
    -- a delimiter ends the loop
    by_cases hdel : c = 0o377
    · simp only [if_pos hdel]
      exact ⟨(t.cl.getc .t_rawq).2, L₁, free₁, rfl, h₁, hpending, hslack₁, hblocks₁⟩
    simp only [if_neg hdel, hedit]
    rcases t.edit bp c.toNat with ⟨bp', - | d⟩
    · -- the character is not stored
      obtain ⟨cl, L, free', hrun, h', hpending', hslack, hblocks⟩ :=
        ih (t := { t with cl := (t.cl.getc .t_rawq).2 }) bp' h₁
          (by rw [hpending, update_self]) n hcs
      have hscan : scan { t with cl := (t.cl.getc .t_rawq).2 } cs bp' t.canonb =
          scan t cs bp' t.canonb :=
        scan_with t _ t.canonb cs bp' t.canonb
      simp only [hscan] at hrun hpending'
      refine ⟨cl, L, free', hrun, by rwa [update_idem] at h', ?_, fun hrest => ?_, ?_⟩
      · rw [hpending', hpending, update_idem]
      · rw [hslack (by rwa [hscan]), hslack₁ fun hnil => hrest (by rw [hnil]; rfl)]
      · rw [hblocks, update_self, hblocks₁]
    -- the character is stored; the loop ends at the buffer's end
    · simp only
      split
      · exact ⟨(t.cl.getc .t_rawq).2, L₁, free₁, rfl, h₁, hpending, hslack₁, hblocks₁⟩
      · obtain ⟨cl, L, free', hrun, h', hpending', hslack, hblocks⟩ :=
          ih (t := { t with
              cl := (t.cl.getc .t_rawq).2
              canonb := update t.canonb bp' (BitVec.ofInt 8 d) }) (bp' + 1) h₁
            (by rw [hpending, update_self]) n hcs
        have hscan : ∀ canonb, scan { t with
            cl := (t.cl.getc .t_rawq).2
            canonb := update t.canonb bp' (BitVec.ofInt 8 d) } cs (bp' + 1) canonb =
            scan t cs (bp' + 1) canonb :=
          scan_with t _ _ cs (bp' + 1)
        simp only [hscan] at hrun hpending'
        refine ⟨cl, L, free', hrun, by rwa [update_idem] at h', ?_, fun hrest => ?_, ?_⟩
        · rw [hpending', hpending, update_idem]
        · rw [hslack (by rwa [hscan]), hslack₁ fun hnil => hrest (by rw [hnil, scan])]
        · rw [hblocks, update_self, hblocks₁]

/-- The place goes back over a character that is in the buffer only. -/
theorem edit_bounds {bp : ℕ} (hbp : 2 ≤ bp) (hguard : t.canonb 1 = 0) (c : ℤ) :
    2 ≤ (t.edit bp c).1 := by
  have hback : t.canonb (bp - 1) = ascii '\\' → 2 ≤ bp - 1 := by
    intro hback
    by_contra hlt
    rw [show bp - 1 = 1 by omega, hguard] at hback
    exact absurd hback (by decide)
  simp only [edit]
  split_ifs with _ hplain
  all_goals first
    | exact hbp
    | exact le_rfl
    | exact hback (not_not.mp hplain)
    | exact Nat.le_sub_one_of_lt ‹2 < bp›

/-- Nothing is stored before the third byte of the buffer. -/
theorem scan_guard (t : Tty) (cs : List Byte) {bp : ℕ} (canonb : ℕ → Byte) (hbp : 2 ≤ bp)
    (hguard : canonb 1 = 0) : (scan t cs bp canonb).2.2.1 1 = 0 := by
  induction cs generalizing bp canonb with
  | nil => exact hguard
  | cons c cs ih =>
    have hbound := edit_bounds (t := { t with canonb := canonb }) hbp hguard c.toNat
    rw [scan]
    split
    · exact hguard
    split
    case h_1 bp' hedit =>
      rw [hedit] at hbound
      exact ih canonb hbound hguard
    case h_2 bp' d hedit =>
      rw [hedit] at hbound
      have hstored : update canonb bp' (BitVec.ofInt 8 d) 1 = 0 := by
        rw [update_of_ne (by simp only at hbound; omega), hguard]
      simp only
      split
      · exact hstored
      · exact ih _ (Nat.le_succ_of_le hbound) hstored

/-- What the loop takes has no delimiter but for the one at its end. -/
theorem scan_split (t : Tty) (cs : List Byte) (bp : ℕ) (canonb : ℕ → Byte) :
    let r := scan t cs bp canonb
    ∃ pre, 0o377 ∉ pre ∧ (r.1 = .empty → r.2.2.2 = []) ∧
      cs = pre ++ if r.1 = .delimiter then 0o377 :: r.2.2.2 else r.2.2.2 := by
  induction cs generalizing bp canonb with
  | nil => exact ⟨[], by simp, fun _ => rfl, rfl⟩
  | cons c cs ih =>
    simp only [scan]
    by_cases hdel : c = 0o377
    · rw [if_pos hdel]
      exact ⟨[], by simp, by simp, by rw [hdel]; rfl⟩
    rw [if_neg hdel]
    have hmem : ∀ {pre}, (0o377 : Byte) ∉ pre → 0o377 ∉ c :: pre := fun hpre hmem =>
      (List.mem_cons.mp hmem).elim (fun h => hdel h.symm) hpre
    split
    case h_1 bp' _ =>
      obtain ⟨pre, hpre, hempty, hcs⟩ := ih bp' canonb
      exact ⟨c :: pre, hmem hpre, hempty, by rw [List.cons_append, ← hcs]⟩
    case h_2 bp' d _ =>
      split
      · exact ⟨[c], by simpa using Ne.symm hdel, by simp, by simp⟩
      · obtain ⟨pre, hpre, hempty, hcs⟩ := ih (bp' + 1) (update canonb bp' (BitVec.ofInt 8 d))
        exact ⟨c :: pre, hmem hpre, hempty, by rw [List.cons_append, ← hcs]⟩

/-- The line in the buffer. -/
def lineOf (bp1 : ℕ) (canonb : ℕ → Byte) : List Byte := (List.range' 2 (bp1 - 2)).map canonb

theorem copyLine_eq (bp1 : ℕ) (t : Tty) : t.copyLine bp1 =
    { t with cl := (lineOf bp1 t.canonb).foldl (fun s c => (s.putc c .t_canq).2) t.cl } := by
  rw [copyLine, lineOf]
  generalize List.range' 2 (bp1 - 2) = ks
  induction ks using List.reverseRecOn with
  | nil => rfl
  | append_singleton ks k ih =>
    rw [List.foldl_append, ih, List.map_append, List.foldl_append]
    rfl

/-- The room of the canonical queue when `rest` characters are left in the raw queue, if there are
`nfree` free blocks now. -/
def roomFor (t : Tty) (nfree rest : ℕ) : ℕ :=
  slack (t.cl.q .t_canq) + 6 * (nfree +
    blocksFor (slack (t.cl.q .t_rawq)) (t.cl.pending .t_rawq).length -
    blocksFor (slack (t.cl.q .t_rawq)) rest)

/-- The blocks of the raw queue are enough for all its characters. -/
theorem length_le_roomFor (t : Tty) (nfree : ℕ) :
    (t.cl.pending .t_rawq).length ≤ roomFor t nfree 0 := by
  simp only [roomFor, blocksFor]
  split <;> simp only [if_true] <;> omega

/-- `canon` once there is a line. Of the line it puts into the canonical queue what the pool has
room for. -/
theorem canon_eq (h : Inv P t.cl lay free) (hdel : t.t_delct ≠ 0) :
    let r := scan t (t.cl.pending .t_rawq) 2 t.canonb
    ∃ cl, t.canon = some (1, { t with
        cl := cl
        canonb := r.2.2.1
        t_delct := if r.1 = .delimiter then t.t_delct - 1 else t.t_delct }) ∧
      (∃ lay free, Inv P cl lay free) ∧
      cl.pending = update (update t.cl.pending .t_rawq r.2.2.2) .t_canq (t.cl.pending .t_canq ++
        (lineOf r.2.1 r.2.2.1).take (roomFor t free.length r.2.2.2.length)) := by
  have hrounds : (t.cl.pending .t_rawq).length < t.rounds .t_rawq := by
    simp only [rounds, count, h.cc_eq]
    omega
  obtain ⟨cl, L, free₁, hrun, h₁, hpending, hslack, hblocks⟩ :=
    canonLoop_eq 2 h rfl hrounds
  generalize hr : scan t (t.cl.pending .t_rawq) 2 t.canonb = r at hrun hpending hslack ⊢
  obtain ⟨L', free', h', hpending', -⟩ :=
    h₁.puts (i := .t_canq) (lineOf r.2.1 r.2.2.1)
  -- the blocks that the raw queue has given back
  have hcan : slack (cl.q .t_canq) = slack (t.cl.q .t_canq) := by
    have hbefore := h.slack_eq .t_canq
    have hafter := h₁.slack_eq .t_canq
    rw [update_of_ne (show TtyQ.t_canq ≠ .t_rawq by decide)] at hafter
    omega
  have hraw : L.bs.length = blocksFor (slack (t.cl.q .t_rawq)) r.2.2.2.length := by
    have hafter := h₁.blocks_eq .t_rawq
    rw [update_self, hpending, update_self] at hafter
    rw [hafter]
    by_cases hrest : r.2.2.2 = []
    · simp only [hrest, List.length_nil, blocksFor, if_true]
    · rw [hslack hrest]
  have hroom : cl.room free₁ .t_canq = roomFor t free.length r.2.2.2.length := by
    rw [TtySys.room, roomFor, hcan, ← hraw, ← h.blocks_eq .t_rawq]
    omega
  refine ⟨_, ?_, ⟨_, free', h'⟩, ?_⟩
  · simp only [canon, if_neg hdel, hrun, Option.map_some, copyLine_eq]
  · rw [hpending', hpending, update_of_ne (show TtyQ.t_canq ≠ .t_rawq by decide), hroom]

/-! ## Typing -/

/-- What is typed has seven bits. -/
theorem typed_le (t : Tty) (ac : Byte) : (t.typed ac).toNat ≤ 0o177 := by
  rw [typed]
  split
  · decide
  · rw [BitVec.toNat_and]
    exact Nat.and_le_right

/-- A character of 7 bits stays one when its case is changed. -/
theorem lower_le {c : Byte} (t : Tty) (hc : c.toNat ≤ 0o177) : (t.lower c).toNat ≤ 0o177 := by
  rw [lower]
  split
  case isTrue hcase =>
    have hle : c.toNat ≤ 90 := hcase.2.2
    rw [BitVec.toNat_add]
    show (c.toNat + 32) % 256 ≤ 0o177
    omega
  case isFalse => exact hc

/-- So it is no delimiter. -/
theorem lower_ne {c : Byte} (t : Tty) (hc : c.toNat ≤ 0o177) : t.lower c ≠ 0o377 := by
  intro h
  have hle := lower_le t hc
  rw [h] at hle
  exact absurd hle (by decide)

/-- The character ends a line, and a delimiter follows it. -/
def Ends (t : Tty) (c : Byte) : Prop := t.mode RAW ∨ c = ascii '\n' ∨ c = CEOT

instance (t : Tty) (c : Byte) : Decidable (Ends t c) := by
  unfold Ends
  infer_instance

/-- What of a character and its delimiter goes into a queue with this much room. -/
def entered (t : Tty) (c : Byte) (room : ℕ) : List Byte :=
  if room = 0 then [] else if Ends t c ∧ 2 ≤ room then [c, 0o377] else [c]

theorem enter_eq (h : Inv P t.cl lay free) (c : Byte) :
    let added := entered t c (t.cl.room free .t_rawq)
    ∃ cl, t.enter c = { t with
        cl := cl
        t_delct := if added = [c, 0o377] then t.t_delct + 1 else t.t_delct } ∧
      (∃ lay free, Inv P cl lay free) ∧
      cl.pending = update t.cl.pending .t_rawq (t.cl.pending .t_rawq ++ added) := by
  have hends : ({ t with cl := (t.cl.putc c .t_rawq).2 }.mode RAW ∨ c = ascii '\n' ∨ c = CEOT) ↔
      Ends t c := Iff.rfl
  have hone : [c] ≠ [c, 0o377] := by simp
  have hneg : ¬(-1 : ℤ) = 0 := by decide
  by_cases hroom : t.cl.room free .t_rawq = 0
  · -- neither goes in
    have hfull := h.putc_full (i := .t_rawq) c hroom
    have hfull' := h.putc_full (i := .t_rawq) 0o377 hroom
    refine ⟨t.cl, ?_, ⟨lay, free, h⟩, ?_⟩
    · simp only [enter, Tty.putc, hfull, hfull', entered, if_pos hroom]
      split <;> rfl
    · rw [entered, if_pos hroom, List.append_nil, update_eq_self]
  -- the character goes in
  obtain ⟨hret, hpending, -, L₁, free₁, h₁, hroom₁, -⟩ := h.putc_room c hroom
  by_cases hend : Ends t c
  swap
  · refine ⟨(t.cl.putc c .t_rawq).2, ?_, ⟨_, free₁, h₁⟩, ?_⟩
    · have hadded : entered t c (t.cl.room free .t_rawq) = [c] := by
        rw [entered, if_neg hroom, if_neg fun h => hend h.1]
      simp only [enter, Tty.putc, hends, if_neg hend, hadded, if_neg hone]
    · rw [hpending, entered, if_neg hroom, if_neg fun h => hend h.1]
  by_cases hroom' : (t.cl.putc c .t_rawq).2.room free₁ .t_rawq = 0
  · -- there is no room for the delimiter
    have hfull := h₁.putc_full (i := .t_rawq) 0o377 hroom'
    have hadded : entered t c (t.cl.room free .t_rawq) = [c] := by
      rw [entered, if_neg hroom, if_neg fun h => by omega]
    refine ⟨(t.cl.putc c .t_rawq).2, ?_, ⟨_, free₁, h₁⟩, by rw [hpending, hadded]⟩
    simp only [enter, Tty.putc, hends, if_pos hend, hfull, hadded, if_neg hneg, if_neg hone]
  -- both go in
  · obtain ⟨hret₂, hpending₂, -, L₂, free₂, h₂, -⟩ := h₁.putc_room 0o377 hroom'
    have hadded : entered t c (t.cl.room free .t_rawq) = [c, 0o377] := by
      rw [entered, if_neg hroom, if_pos ⟨hend, by omega⟩]
    refine ⟨((t.cl.putc c .t_rawq).2.putc 0o377 .t_rawq).2, ?_, ⟨_, free₂, h₂⟩, ?_⟩
    · simp only [enter, Tty.putc, hends, if_pos hend, hret₂, hadded, if_true]
    · rw [hpending₂, hpending, hadded, update_idem, update_self, List.append_assoc,
        List.singleton_append]

/-- The character is not put into the raw queue: it is a signal, or too many are there already. -/
def Flushes (t : Tty) (ac : Byte) : Prop :=
  (!t.mode RAW ∧ (t.typed ac = CQUIT ∨ t.typed ac = CINTR)) ∨ TTYHOG ≤ t.count .t_rawq

instance (t : Tty) (ac : Byte) : Decidable (Flushes t ac) := by
  unfold Flushes
  infer_instance

/-- What `ttyinput` does besides the echo. -/
theorem ttyinput_cases {fuel : ℕ} {ac : Byte} (h : Wf P t) (hs : t.ttyinput be fuel ac = some t') :
    (Flushes t ac ∧ t.flushtty = some t') ∨
      (¬Flushes t ac ∧ OutputOnly P (t.enter (t.lower (t.typed ac))) t') := by
  rw [ttyinput] at hs
  simp only at hs
  split at hs
  case isTrue hquit => exact .inl ⟨.inl hquit, hs⟩
  case isFalse hquit =>
  split at hs
  case isTrue hhog => exact .inl ⟨.inr hhog, hs⟩
  case isFalse hhog =>
  -- neither a quit nor a full queue: the character goes in
  refine .inr ⟨fun hflushes => hflushes.elim hquit hhog, ?_⟩
  obtain ⟨lay, free, hinv⟩ := h
  obtain ⟨cl, henter, hwf, -⟩ := enter_eq hinv (t.lower (t.typed ac))
  have hwf' : Wf P (t.enter (t.lower (t.typed ac))) := by
    rw [henter]
    exact hwf
  split at hs
  · -- the echo touches the output queue alone
    obtain ⟨t₂, hecho, hs⟩ := Option.bind_eq_some_iff.mp hs
    have hout := outputOnly_of_ttyoutput hwf' hecho
    obtain ⟨t₃, hstart, hout'⟩ := ttstart_outputOnly be hout.wf
    rw [hstart] at hs
    rw [← Option.some.inj hs]
    exact hout.trans hout'
  · rw [← Option.some.inj hs]
    exact OutputOnly.refl hwf'

/-! ## Reading -/

/-- A read takes the characters it stores, and one more if that one cannot be stored. -/
theorem passLoop_eq {cs : List Byte} {n : ℕ} (u_count mapped : ℕ) (h : Inv P t.cl lay free)
    (hp : t.cl.pending .t_canq = cs) (hn : cs.length < n) (hu : 0 < u_count) :
    ∃ cl, t.passLoop n u_count mapped = some (cs.take (min u_count mapped), { t with cl := cl }) ∧
      (∃ lay free, Inv P cl lay free) ∧
      cl.pending = update t.cl.pending .t_canq (cs.drop (min u_count (mapped + 1))) := by
  obtain ⟨n, rfl⟩ : ∃ m, n = m + 1 := ⟨n - 1, by omega⟩
  induction cs generalizing t lay free n u_count mapped with
  | nil =>
    -- the queue is empty
    have hcount : t.count .t_canq = 0 := by
      rw [count, h.cc_eq, hp]
      rfl
    refine ⟨t.cl, ?_, ⟨lay, free, h⟩, ?_⟩
    · rw [passLoop, if_pos hcount, List.take_nil]
    · rw [List.drop_nil, ← hp, update_eq_self]
  | cons c cs ih =>
    obtain ⟨n, rfl⟩ : ∃ m, n = m + 1 := ⟨n - 1, by simp only [List.length_cons] at hn; omega⟩
    obtain ⟨hret, hpending, -, L, free₁, h₁, -⟩ := h.getc_cons hp
    have hcount : ¬t.count .t_canq = 0 := by
      rw [count, h.cc_eq, hp, List.length_cons]
      omega
    rw [passLoop, if_neg hcount]
    simp only [Tty.getc, hret, BitVec.ofInt_natCast, BitVec.ofNat_toNat, BitVec.setWidth_eq]
    by_cases hmapped : mapped = 0
    · -- the character is taken, but there is no memory for it
      have hone : min u_count (0 + 1) = 1 := by omega
      refine ⟨_, ?_, ⟨_, free₁, h₁⟩, ?_⟩
      · rw [if_pos hmapped, hmapped, Nat.min_zero, List.take_zero]
      · rw [hpending, hmapped, hone, List.drop_one, List.tail_cons]
    by_cases hlast : u_count = 1
    · -- the last character wanted
      have hone : min 1 mapped = 1 := by omega
      have hone' : min 1 (mapped + 1) = 1 := by omega
      refine ⟨_, ?_, ⟨_, free₁, h₁⟩, ?_⟩
      · rw [if_neg hmapped, if_pos hlast, hlast, hone, List.take_one]
        rfl
      · rw [hpending, hlast, hone', List.drop_one, List.tail_cons]
    · obtain ⟨cl, hrun, hwf, hpending'⟩ :=
        ih (t := { t with cl := (t.cl.getc .t_canq).2 }) (u_count - 1) (mapped - 1) h₁
          (by rw [hpending, update_self]) (by omega) n
          (by simp only [List.length_cons] at hn; omega)
      have htake : min u_count mapped = min (u_count - 1) (mapped - 1) + 1 := by omega
      have hdrop : min u_count (mapped + 1) = min (u_count - 1) (mapped - 1 + 1) + 1 := by omega
      refine ⟨cl, ?_, hwf, ?_⟩
      · rw [if_neg hmapped, if_neg hlast, hrun, htake]
        rfl
      · rw [hpending', hpending, update_idem, hdrop, List.drop_succ_cons]

/-! ## Calls -/

/-- A whole call of a routine of the terminal, or of another one that uses the pool. -/
inductive TtyCall
  | ttyinput (fuel : ℕ) (c : Byte)
  | canon
  | ttread (u_count mapped : ℕ)
  | flushtty
  | wflushtty (slept : Bool)
  | ttystty (slept : Bool) (erase kill : Byte) (flags : Word)
  | output (a : OutAct)
  | putOther (c : Byte) (k : ℕ)
  | getOther (k : ℕ)
  deriving DecidableEq, Repr

/-- The call, if it returns. -/
def ttyStep (be : Backend) (t : Tty) : TtyCall → Option Tty
  | .ttyinput fuel c => t.ttyinput be fuel c
  | .canon => t.canon.map Prod.snd
  | .ttread u_count mapped =>
    if u_count = 0 then none else (t.ttread u_count mapped).map Prod.snd
  | .flushtty => t.flushtty
  | .wflushtty slept => t.wflushtty slept
  | .ttystty slept erase kill flags => t.ttystty slept erase kill flags
  | .output a => outStep be t a
  | .putOther c k => some (t.putc c (.other k)).2
  | .getOther k => some (t.getc (.other k)).2

/-- The count of delimiters is right modulo 256, and as there is a character between any two of
them, and the raw queue is short, it is right. The byte before the line in the buffer, at which
`canon` looks for a backslash, is never written. -/
structure Counted (P : Set ℕ) (t : Tty) : Prop where
  wf : Wf P t
  delct : t.t_delct = BitVec.ofNat 8 ((t.cl.pending .t_rawq).count 0o377)
  spaced : (t.cl.pending .t_rawq).IsChain fun a b => ¬(a = 0o377 ∧ b = 0o377)
  short : (t.cl.pending .t_rawq).length ≤ 257
  guard : t.canonb 1 = 0

/-- Without two in a row at most every other one is. -/
theorem two_mul_count_le {cs : List Byte}
    (h : cs.IsChain fun a b => ¬(a = (0o377 : Byte) ∧ b = 0o377)) :
    2 * cs.count 0o377 ≤ cs.length + if cs.head? = some 0o377 then 1 else 0 := by
  induction cs with
  | nil => simp
  | cons c cs ih =>
    have htail := ih h.tail
    rw [List.count_cons, List.length_cons, List.head?_cons]
    by_cases hc : c = 0o377
    · have hhead : cs.head? ≠ some 0o377 := by
        intro hhead
        obtain ⟨cs', rfl⟩ := List.head?_eq_some_iff.mp hhead
        exact (List.isChain_cons_cons.mp h).1 ⟨hc, rfl⟩
      rw [if_neg hhead] at htail
      simp only [hc, beq_self_eq_true, if_true]
      omega
    · have hne : ¬some c = some 0o377 := fun h => hc (Option.some.inj h)
      rw [if_neg hne]
      simp only [beq_iff_eq, hc, if_false]
      split at htail <;> omega

namespace Counted

theorem count_lt (h : Counted P t) : (t.cl.pending .t_rawq).count 0o377 < 256 := by
  have hle := two_mul_count_le h.spaced
  have hshort := h.short
  split at hle <;> omega

theorem zero_iff (h : Counted P t) : t.t_delct = 0 ↔ 0o377 ∉ t.cl.pending .t_rawq := by
  have hlt := h.count_lt
  rw [h.delct, ← List.count_eq_zero, ← BitVec.toNat_inj, BitVec.toNat_ofNat]
  show _ % 256 = 0 ↔ _
  omega

/-- Only the raw queue, the count and the buffer matter. -/
theorem congr (h : Counted P t) (hwf : Wf P t') (hdelct : t'.t_delct = t.t_delct)
    (hraw : t'.cl.pending .t_rawq = t.cl.pending .t_rawq) (hcanonb : t'.canonb = t.canonb) :
    Counted P t' := by
  refine ⟨hwf, ?_, ?_, ?_, ?_⟩
  · rw [hdelct, hraw, h.delct]
  · rw [hraw]
    exact h.spaced
  · rw [hraw]
    exact h.short
  · rw [hcanonb]
    exact h.guard

/-- An empty raw queue. -/
theorem empty (hwf : Wf P t) (hdelct : t.t_delct = 0) (hraw : t.cl.pending .t_rawq = [])
    (hguard : t.canonb 1 = 0) : Counted P t := by
  refine ⟨hwf, ?_, ?_, ?_, hguard⟩
  · rw [hdelct, hraw]
    rfl
  · rw [hraw]
    exact List.isChain_nil
  · rw [hraw]
    exact Nat.zero_le _

/-- A call that throws the input away. -/
theorem flushtty (h : Counted P t) (hs : t.flushtty = some t') : Counted P t' := by
  obtain ⟨cl, hrun, hwf, hpending⟩ := flushtty_eq h.wf
  rw [hrun] at hs
  rw [← Option.some.inj hs]
  exact empty hwf rfl (by rw [hpending, update_self]) h.guard

/-- `wflushtty` leaves no delimiter. -/
theorem wflushtty {slept : Bool} (h : Counted P t) (hs : t.wflushtty slept = some t') :
    Counted P t' := by
  rw [Tty.wflushtty] at hs
  obtain ⟨-, hs⟩ := Option.ite_none_left_eq_some.mp hs
  refine Counted.flushtty (P := P) ?_ hs
  split
  · exact h.congr h.wf rfl rfl rfl
  · exact h

theorem canon (h : Counted P t) {r : ℕ} (hs : t.canon = some (r, t')) : Counted P t' := by
  by_cases hdel : t.t_delct = 0
  · rw [Tty.canon, if_pos hdel] at hs
    obtain ⟨-, hs⟩ := Option.ite_none_left_eq_some.mp hs
    rw [← (Prod.mk.inj (Option.some.inj hs)).2]
    exact h
  obtain ⟨lay, free, hinv⟩ := h.wf
  obtain ⟨cl, hrun, hwf, hpending⟩ := canon_eq hinv hdel
  -- `canon` takes the characters up to the first delimiter
  obtain ⟨pre, hpre, -, hsplit⟩ := scan_split t (t.cl.pending .t_rawq) 2 t.canonb
  rw [hrun] at hs
  have hguard := scan_guard t (t.cl.pending .t_rawq) t.canonb le_rfl h.guard
  rw [← (Prod.mk.inj (Option.some.inj hs)).2]
  generalize scan t (t.cl.pending .t_rawq) 2 t.canonb = r at hpending hsplit hguard ⊢
  have hraw : cl.pending .t_rawq = r.2.2.2 := by
    rw [hpending, update_of_ne (show TtyQ.t_rawq ≠ .t_canq by decide), update_self]
  -- one delimiter less in the queue, and `t_delct` goes down by one
  have hcount := h.delct
  have hspaced := h.spaced
  have hshort := h.short
  rw [hsplit] at hcount hspaced hshort
  rw [List.length_append] at hshort
  rw [List.count_append, List.count_eq_zero.mpr hpre, Nat.zero_add] at hcount
  have hrest := hspaced.right_of_append
  refine ⟨hwf, ?_, ?_, ?_, hguard⟩ <;> simp only [hraw]
  · split at hcount
    case isTrue hend =>
      rw [if_pos hend, hcount, List.count_cons_self, BitVec.ofNat_add, BitVec.ofNat_eq_ofNat]
      exact BitVec.add_sub_cancel _ _
    case isFalse hend => rw [if_neg hend, hcount]
  · split at hrest
    · exact hrest.tail
    · exact hrest
  · split at hshort
    · rw [List.length_cons] at hshort
      omega
    · omega

/-- The loop of `ttread` takes characters of the line. -/
theorem passLoop {n u_count mapped : ℕ} {bytes : List Byte} (h : Counted P t)
    (hn : (t.cl.pending .t_canq).length < n) (hu : 0 < u_count)
    (hs : t.passLoop n u_count mapped = some (bytes, t')) : Counted P t' := by
  obtain ⟨lay, free, hinv⟩ := h.wf
  obtain ⟨cl, hrun, hwf, hpending⟩ := passLoop_eq u_count mapped hinv rfl hn hu
  rw [hrun] at hs
  rw [← (Prod.mk.inj (Option.some.inj hs)).2]
  refine h.congr hwf rfl ?_ rfl
  show cl.pending .t_rawq = _
  rw [hpending, update_of_ne (show TtyQ.t_rawq ≠ .t_canq by decide)]

theorem rounds_lt (h : Wf P t) (i : TtyQ) : (t.cl.pending i).length < t.rounds i := by
  obtain ⟨lay, free, hinv⟩ := h
  simp only [rounds, count, hinv.cc_eq]
  omega

/-- `ttread` takes one line at most. -/
theorem ttread {u_count mapped : ℕ} {bytes : List Byte} (h : Counted P t) (hu : 0 < u_count)
    (hs : t.ttread u_count mapped = some (bytes, t')) : Counted P t' := by
  rw [Tty.ttread] at hs
  split at hs
  · rw [← (Prod.mk.inj (Option.some.inj hs)).2]
    exact h
  split at hs
  · exact h.passLoop (rounds_lt h.wf _) hu hs
  obtain ⟨⟨r, t₁⟩, hcanon, hs⟩ := Option.bind_eq_some_iff.mp hs
  have h₁ := h.canon hcanon
  simp only at hs
  split at hs
  · exact h₁.passLoop (rounds_lt h₁.wf _) hu hs
  · rw [← (Prod.mk.inj (Option.some.inj hs)).2]
    exact h₁

/-- A character that goes in is no delimiter, and the delimiter goes in after it only. -/
theorem enter {c : Byte} (h : Counted P t) (hc : c ≠ 0o377)
    (hshort : (t.cl.pending .t_rawq).length ≤ 255) : Counted P (t.enter c) := by
  obtain ⟨lay, free, hinv⟩ := h.wf
  obtain ⟨cl, hrun, hwf, hpending⟩ := enter_eq hinv c
  -- nothing goes in, the character alone, or a delimiter after it
  have hadded : entered t c (t.cl.room free .t_rawq) = [] ∨
      entered t c (t.cl.room free .t_rawq) = [c] ∨
      entered t c (t.cl.room free .t_rawq) = [c, 0o377] := by
    rw [entered]
    split_ifs
    · exact .inl rfl
    · exact .inr (.inr rfl)
    · exact .inr (.inl rfl)
  rw [hrun]
  generalize entered t c (t.cl.room free .t_rawq) = added at hadded hpending
  have hraw : cl.pending .t_rawq = t.cl.pending .t_rawq ++ added := by
    rw [hpending, update_self]
  have hhead : added.head? ≠ some 0o377 := by
    rcases hadded with rfl | rfl | rfl
    · simp
    · exact fun h => hc (Option.some.inj h)
    · exact fun h => hc (Option.some.inj h)
  have hchain : added.IsChain fun a b => ¬(a = 0o377 ∧ b = 0o377) := by
    rcases hadded with rfl | rfl | rfl
    · exact List.isChain_nil
    · exact List.isChain_singleton c
    · exact (List.isChain_pair).mpr fun hboth => hc hboth.1
  refine ⟨hwf, ?_, ?_, ?_, h.guard⟩ <;> simp only [hraw]
  · rw [h.delct, List.count_append, BitVec.ofNat_add]
    have hone : [c] ≠ [c, 0o377] := by simp
    rcases hadded with rfl | rfl | rfl
    · rw [if_neg (by simp), List.count_nil]
      exact (BitVec.add_zero _).symm
    · rw [if_neg hone, List.count_cons_of_ne hc, List.count_nil]
      exact (BitVec.add_zero _).symm
    · rw [if_pos rfl, List.count_cons_of_ne hc, List.count_singleton_self]
      rfl
  · refine h.spaced.append hchain fun a _ b hb hboth => hhead ?_
    rw [← hboth.2]
    exact hb
  · rw [List.length_append]
    rcases hadded with rfl | rfl | rfl <;> simp only [List.length_nil, List.length_cons] <;> omega

theorem output (h : Counted P t) (hout : OutputOnly P t t') : Counted P t' :=
  h.congr hout.wf hout.t_delct (hout.pending _ (by decide)) hout.canonb

/-- The character that is typed goes in, unless the input is flushed. -/
theorem enter_typed {ac : Byte} (h : Counted P t) (hflushes : ¬Flushes t ac) :
    Counted P (t.enter (t.lower (t.typed ac))) := by
  obtain ⟨lay, free, hinv⟩ := h.wf
  have hhog : ¬TTYHOG ≤ t.count .t_rawq := fun hhog => hflushes (.inr hhog)
  rw [count, hinv.cc_eq, TTYHOG] at hhog
  exact h.enter (lower_ne t (typed_le t ac)) (by omega)

/-- `ttyinput` counts the delimiter that it puts into the queue. -/
theorem ttyinput {fuel : ℕ} {ac : Byte} (h : Counted P t) (hs : t.ttyinput be fuel ac = some t') :
    Counted P t' := by
  rcases ttyinput_cases h.wf hs with ⟨-, hflush⟩ | ⟨hflushes, hout⟩
  · exact h.flushtty hflush
  · exact (h.enter_typed hflushes).output hout

/-- An output step concerns no delimiter. -/
theorem outStep {a : OutAct} (h : Counted P t) (hs : outStep be t a = some t') :
    Counted P t' := h.output (outStep_outputOnly h.wf hs)

/-- Every call keeps the count. -/
theorem step {a : TtyCall} (h : Counted P t) (hs : ttyStep be t a = some t') : Counted P t' := by
  cases a with
  -- the input interrupt and the calls that read, flush and set modes
  | ttyinput fuel c => exact h.ttyinput hs
  | canon =>
    obtain ⟨⟨r, t₁⟩, hrun, rfl⟩ := Option.map_eq_some_iff.mp hs
    exact h.canon hrun
  | ttread u_count mapped =>
    obtain ⟨hu, hs⟩ := Option.ite_none_left_eq_some.mp hs
    obtain ⟨⟨bytes, t₁⟩, hrun, rfl⟩ := Option.map_eq_some_iff.mp hs
    exact h.ttread (Nat.pos_of_ne_zero hu) hrun
  | flushtty => exact h.flushtty hs
  | wflushtty slept => exact h.wflushtty hs
  | ttystty slept erase kill flags =>
    obtain ⟨t₁, hrun, rfl⟩ := Option.map_eq_some_iff.mp hs
    have h₁ := h.wflushtty hrun
    exact h₁.congr h₁.wf rfl rfl rfl
  -- output takes no input characters
  | output a => exact h.outStep hs
  -- other queues share the free list only
  | putOther c k =>
    obtain ⟨lay, free, hinv⟩ := h.wf
    obtain ⟨-, hpending, L, free', h'⟩ := hinv.putc_other (i := .other k) c
    rw [← Option.some.inj hs]
    exact h.congr ⟨_, free', h'⟩ rfl (hpending _ (by simp)) rfl
  | getOther k =>
    obtain ⟨lay, free, hinv⟩ := h.wf
    rw [← Option.some.inj hs]
    rcases hp : t.cl.pending (.other k) with - | ⟨c, cs⟩
    · have hget : (t.getc (.other k)).2 = t := by rw [Tty.getc, hinv.getc_nil hp]
      rw [hget]
      exact h
    · obtain ⟨-, hpending, -, L, free', h', -⟩ := hinv.getc_cons hp
      refine h.congr ⟨_, free', h'⟩ rfl ?_ rfl
      show (t.cl.getc (.other k)).2.pending .t_rawq = _
      rw [hpending, update_of_ne (by simp)]

end Counted

/-- `t_delct` counts the delimiters of the raw queue. -/
structure DelimCount (t : Tty) : Prop where
  delct : t.t_delct = BitVec.ofNat 8 ((t.cl.pending .t_rawq).count 0o377)
  /-- It is zero for a queue without delimiters only. -/
  zero : t.t_delct = 0 → 0o377 ∉ t.cl.pending .t_rawq
  /-- The loop of `canon` does not run out of characters. -/
  canon : t.t_delct ≠ 0 → ∃ fin bp1 t', t.canonLoop (t.rounds .t_rawq) 2 = some (fin, bp1, t') ∧
    (fin = .delimiter ∨ fin = .full)

theorem Counted.delimCount (h : Counted P t) : DelimCount t := by
  refine ⟨h.delct, h.zero_iff.mp, fun hdel => ?_⟩
  obtain ⟨lay, free, hinv⟩ := h.wf
  obtain ⟨cl, L, free', hrun, -⟩ := canonLoop_eq 2 hinv rfl (Counted.rounds_lt h.wf .t_rawq)
  obtain ⟨pre, hpre, hempty, hsplit⟩ := scan_split t (t.cl.pending .t_rawq) 2 t.canonb
  refine ⟨_, _, _, hrun, ?_⟩
  generalize scan t (t.cl.pending .t_rawq) 2 t.canonb = r at hempty hsplit ⊢
  rcases hr : r.1 with - | - | -
  · -- there would be no delimiter
    exfalso
    rw [hempty hr, hr, if_neg (by decide), List.append_nil] at hsplit
    exact hdel (h.zero_iff.mpr (hsplit ▸ hpre))
  · exact .inl rfl
  · exact .inr rfl

/-- A terminal that has been opened has nothing queued. -/
theorem pending_klopen {cfree : ℕ} (hcfree : 0 < cfree) (c_next : ℕ → ℕ) (info : ℕ → Byte)
    (i : TtyQ) : (klopen cfree c_next info).cl.pending i = [] := by
  obtain ⟨free, h⟩ := inv_klopen hcfree c_next info
  rw [h.pending_eq]
  rfl

/-- In every run the count is that of the delimiters. -/
theorem counted_of_reachable {cfree : ℕ} (hcfree : 0 < cfree) {c_next : ℕ → ℕ} {info : ℕ → Byte}
    (h : Reachable (ttyStep be) (fun _ _ => True) (klopen cfree c_next info) t) :
    Counted (pool cfree) t := by
  have hinit := Counted.empty (wf_klopen hcfree c_next info) rfl
    (pending_klopen hcfree c_next info .t_rawq) rfl
  exact h.invariant hinit fun t a t' ht _ hs => ht.step hs

/-- In every run of calls, whatever is typed and however often the pool is empty. -/
theorem delimCount_of_reachable {cfree : ℕ} (hcfree : 0 < cfree) {c_next : ℕ → ℕ}
    {info : ℕ → Byte}
    (h : Reachable (ttyStep be) (fun _ _ => True) (klopen cfree c_next info) t) : DelimCount t :=
  (counted_of_reachable hcfree h).delimCount

/-- A line is typed, another one is begun, and the first one is read. -/
def typeAndRead : List TtyCall :=
  [.ttyinput 9 (ascii 'a'), .ttyinput 9 (ascii '#'), .ttyinput 9 (ascii '\r'),
    .ttyinput 9 (ascii 'b'), .ttread 9 9]

/-- A line is typed and read. -/
theorem delimCount_typeAndRead : ∃ t, runSteps (ttyStep .bios) typeAndRead opened = some t ∧
    DelimCount t := by
  obtain ⟨t, ht⟩ := Option.isSome_iff_exists.mp (show
    (runSteps (ttyStep .bios) typeAndRead opened).isSome = true from by decide +kernel)
  exact ⟨t, ht, delimCount_of_reachable (show 0 < 0x1000 by decide)
    (Reachable.refl.of_runSteps ht)⟩

end UnixV6.Tty
