import UnixV6.Dmr.Canon

/-!
# Reading lines

What reads get from a terminal in cooked mode, beside what they should get: the lines that have been
typed, edited, in order, each ended by its own delimiter.
-/

open Function

namespace UnixV6.Tty

variable {P : Set ℕ} {t t' : Tty} {lay : TtyQ → Layout} {free : List ℕ} {be : Backend}

/-! ## What a terminal is for -/

/-- The lines that have been typed and not read, and the characters since. -/
structure Lines where
  lines : List (List Byte) := []
  cur : List Byte := []
  deriving DecidableEq, Repr

namespace Lines

/-- A character is typed. Editing makes `edited cs` of a line `cs`. -/
def type (edited : List Byte → List Byte) (ends : Bool) (c : Byte) (l : Lines) : Lines :=
  if ends then { lines := l.lines ++ [edited (l.cur ++ [c])], cur := [] }
  else { l with cur := l.cur ++ [c] }

/-- A read gets the first line, or as much of it as it asks for. Without a line it waits. -/
def read (u_count : ℕ) (l : Lines) : Option (List Byte) × Lines :=
  match l.lines with
  | [] => (none, l)
  | line :: rest =>
    (some (line.take u_count), { l with
      lines := if u_count < line.length then line.drop u_count :: rest else rest })

end Lines

/-- What editing makes of the characters of a line. -/
def edited (t : Tty) (cs : List Byte) : List Byte := (cs.foldl (feed t) []).reverse

/-- A terminal, what reads should get from it, and what they have got so far. -/
structure LineSys where
  t : Tty
  due : Lines
  want : List (Option (List Byte))
  got : List (Option (List Byte))

inductive LineAct
  | ttyinput (fuel : ℕ) (c : Byte)
  | ttread (u_count : ℕ)
  | output (a : OutAct)
  deriving DecidableEq, Repr

/-- What is flushed is lost for the reads, too. -/
def LineSys.typed (s : LineSys) (ac : Byte) : Lines :=
  if Flushes s.t ac then {}
  else
    let c := s.t.lower (s.t.typed ac)
    s.due.type (edited s.t) (Ends s.t c) c

def lineStep (be : Backend) (s : LineSys) : LineAct → Option LineSys
  | .ttyinput fuel ac =>
    (s.t.ttyinput be fuel ac).map fun t => { s with t := t, due := s.typed ac }
  | .ttread u_count =>
    if u_count = 0 then none
    else (s.t.ttread u_count u_count).map fun (bytes, t) =>
      { t := t
        due := (s.due.read u_count).2
        want := s.want ++ [(s.due.read u_count).1]
        got := s.got ++ [some bytes] }
  | .output a => (outStep be s.t a).map fun t => { s with t := t }

/-- The first line of the raw queue. -/
def firstLine (t : Tty) : List Byte := (t.cl.pending .t_rawq).takeWhile fun c => c != 0o377

/-- A character finds room in the raw queue, also for its delimiter. A line that is to be read is
never longer than 253 characters while it is edited, and there is room for it then. -/
def LineOk (s : LineSys) : LineAct → Prop
  | .ttyinput _ ac => ¬Flushes s.t ac →
    (if Ends s.t (s.t.lower (s.t.typed ac)) then 2 else 1) ≤
      slack (s.t.cl.q .t_rawq) + 6 * s.t.cl.nfree
  | .ttread _ => s.t.count .t_canq = 0 → Fits s.t 254 [] (firstLine s.t) ∧
    (edited s.t (firstLine s.t)).length ≤ roomFor s.t s.t.cl.nfree
      ((s.t.cl.pending .t_rawq).length - (firstLine s.t).length - 1)
  | .output _ => True

instance (t : Tty) (n : ℕ) (w cs : List Byte) : Decidable (Fits t n w cs) :=
  decidable_of_iff (∀ pre ∈ cs.inits, (pre.foldl (feed t) w).length < n) <| by
    simp only [List.mem_inits, Fits]

instance (s : LineSys) (a : LineAct) : Decidable (LineOk s a) := by
  cases a <;> simp only [LineOk] <;> infer_instance

/-! ## The queues and the lines -/

/-- How a line is edited depends on three fields. -/
theorem feed_congr (hflags : t'.t_flags = t.t_flags) (herase : t'.t_erase = t.t_erase)
    (hkill : t'.t_kill = t.t_kill) : feed t' = feed t := by
  have hmode : ∀ flag, t'.mode flag = t.mode flag := fun flag => by rw [mode, mode, hflags]
  ext1 w
  ext1 c
  simp only [feed, hmode, herase, hkill]

/-- What a line becomes depends on three fields. -/
theorem edited_congr (hflags : t'.t_flags = t.t_flags) (herase : t'.t_erase = t.t_erase)
    (hkill : t'.t_kill = t.t_kill) : edited t' = edited t := by
  ext1 cs
  rw [edited, edited, feed_congr hflags herase hkill]

/-- The queues hold what is due: the rest of a line, the lines as they were typed, and the
characters since. -/
structure Follows (cfree : ℕ) (s : LineSys) : Prop where
  counted : Counted (pool cfree) s.t
  cooked : s.t.mode RAW = false
  carrier : s.t.is CARR_ON = true
  got : s.got = s.want
  cur : 0o377 ∉ s.due.cur
  queue : ∃ ls : List (List Byte), (∀ l ∈ ls, 0o377 ∉ l) ∧
    s.t.cl.pending .t_rawq = ls.flatMap (fun l => l ++ [0o377]) ++ s.due.cur ∧
    s.due.lines = (if s.t.cl.pending .t_canq = [] then [] else [s.t.cl.pending .t_canq]) ++
      ls.map (edited s.t)

namespace Follows

variable {cfree : ℕ} {s s' : LineSys}

/-- Output concerns no line. -/
theorem output (h : Follows cfree s) (hout : OutputOnly (pool cfree) s.t t') :
    Follows cfree { s with t := t' } := by
  obtain ⟨ls, hls, hraw, hlines⟩ := h.queue
  refine ⟨h.counted.output hout, ?_, ?_, h.got, h.cur, ls, hls, ?_, ?_⟩
  · rw [mode, hout.t_flags]
    exact h.cooked
  · rw [hout.carrier]
    exact h.carrier
  · rw [hout.pending _ (by decide)]
    exact hraw
  · rw [hout.pending _ (by decide), edited_congr hout.t_flags hout.t_erase hout.t_kill]
    exact hlines

/-- The character is the last one of the current line, or the next line begins after it. -/
theorem enter {ac : Byte} (h : Follows cfree s) (hflushes : ¬Flushes s.t ac)
    (hroom : (if Ends s.t (s.t.lower (s.t.typed ac)) then 2 else 1) ≤
      slack (s.t.cl.q .t_rawq) + 6 * s.t.cl.nfree) :
    let c := s.t.lower (s.t.typed ac)
    Follows cfree { s with
      t := s.t.enter c
      due := s.due.type (edited s.t) (Ends s.t c) c } := by
  intro c
  have hcounted := h.counted.enter_typed hflushes
  have hne : (0o377 : Byte) ≠ c := Ne.symm (lower_ne s.t (typed_le s.t ac))
  have hcur : 0o377 ∉ s.due.cur ++ [c] := by
    rw [List.mem_append, List.mem_singleton, not_or]
    exact ⟨h.cur, hne⟩
  obtain ⟨lay, free, hinv⟩ := h.counted.wf
  obtain ⟨cl, hrun, -, hpending⟩ := enter_eq hinv c
  rw [hinv.nfree_eq] at hroom
  -- there is room for the character, and for the delimiter if it ends the line
  have hadded : entered s.t c (s.t.cl.room free .t_rawq) =
      if Ends s.t c then [c, 0o377] else [c] := by
    rw [entered, TtySys.room, if_neg (by split at hroom <;> omega)]
    by_cases hends : Ends s.t c
    · rw [if_pos hends] at hroom
      rw [if_pos ⟨hends, hroom⟩, if_pos hends]
    · rw [if_neg hends, if_neg fun hboth => hends hboth.1]
  rw [hadded] at hpending
  have hcan : (s.t.enter c).cl.pending .t_canq = s.t.cl.pending .t_canq := by
    rw [hrun]
    show cl.pending .t_canq = _
    rw [hpending, update_of_ne (by decide)]
  have hraw : (s.t.enter c).cl.pending .t_rawq =
      s.t.cl.pending .t_rawq ++ if Ends s.t c then [c, 0o377] else [c] := by
    rw [hrun]
    show cl.pending .t_rawq = _
    rw [hpending, update_self]
  have hedited : edited (s.t.enter c) = edited s.t := by
    rw [hrun]
    exact edited_congr rfl rfl rfl
  obtain ⟨ls, hls, hbefore, hlines⟩ := h.queue
  refine ⟨hcounted, by rw [hrun]; exact h.cooked, by rw [hrun]; exact h.carrier, h.got, ?_, ?_⟩
  · simp only [Lines.type]
    split
    · simp
    · exact hcur
  simp only [hraw, hcan, hedited, hbefore, Lines.type, decide_eq_true_eq]
  split
  case isTrue hends =>
    refine ⟨ls ++ [s.due.cur ++ [c]], ?_, by simp, by rw [hlines]; simp⟩
    intro l hl
    rcases List.mem_append.mp hl with hl | hl
    · exact hls l hl
    · rw [List.mem_singleton.mp hl]
      exact hcur
  case isFalse hends => exact ⟨ls, hls, by simp, hlines⟩

/-- A character is typed. -/
theorem ttyinput {fuel : ℕ} {ac : Byte} (h : Follows cfree s)
    (hok : LineOk s (.ttyinput fuel ac)) (hs : s.t.ttyinput be fuel ac = some t') :
    Follows cfree { s with t := t', due := s.typed ac } := by
  have hcounted := h.counted.ttyinput hs
  obtain ⟨lay, free, hinv⟩ := h.counted.wf
  rcases ttyinput_cases h.counted.wf hs with ⟨hflushes, hflush⟩ | ⟨hflushes, hout⟩
  · -- nothing is left
    obtain ⟨cl, hrun, hwf, hpending⟩ := flushtty_eq h.counted.wf
    rw [hrun] at hflush
    obtain rfl := Option.some.inj hflush
    have hnil : s.typed ac = {} := if_pos hflushes
    rw [hnil]
    refine ⟨hcounted, h.cooked, h.carrier, h.got, by simp, [], by simp, ?_, ?_⟩
    · show cl.pending .t_rawq = _
      rw [hpending, update_self]
      rfl
    · have hcan : cl.pending .t_canq = [] := by
        rw [hpending, update_of_ne (by decide), update_of_ne (by decide), update_self]
      show [] = (if cl.pending .t_canq = [] then [] else [cl.pending .t_canq]) ++ _
      rw [if_pos hcan]
      rfl
  · rw [show s.typed ac = _ from if_neg hflushes]
    exact (h.enter hflushes (hok hflushes)).output hout

/-- The read gets what it can of the line in the canonical queue. -/
theorem pass {t₁ : Tty} {u_count : ℕ} {bytes : List Byte} {ls : List (List Byte)}
    (hcounted : Counted (pool cfree) t₁) (hcooked : t₁.mode RAW = false)
    (hcarrier : t₁.is CARR_ON = true) (hgot : s.got = s.want) (hcur : 0o377 ∉ s.due.cur)
    (hls : ∀ l ∈ ls, 0o377 ∉ l)
    (hraw : t₁.cl.pending .t_rawq = ls.flatMap (fun l => l ++ [0o377]) ++ s.due.cur)
    (hlines : s.due.lines = t₁.cl.pending .t_canq :: ls.map (edited t₁)) (hu : 0 < u_count)
    (hs : t₁.passLoop (t₁.rounds .t_canq) u_count u_count = some (bytes, t')) :
    Follows cfree {
      t := t'
      due := (s.due.read u_count).2
      want := s.want ++ [(s.due.read u_count).1]
      got := s.got ++ [some bytes] } := by
  have hcounted' := hcounted.passLoop (Counted.rounds_lt hcounted.wf _) hu hs
  obtain ⟨lay, free, hinv⟩ := hcounted.wf
  obtain ⟨cl, hrun, -, hpending⟩ :=
    passLoop_eq u_count u_count hinv rfl (Counted.rounds_lt hcounted.wf .t_canq) hu
  rw [hrun] at hs
  obtain ⟨rfl, rfl⟩ := Prod.mk.inj (Option.some.inj hs)
  have hmin : min u_count (u_count + 1) = u_count := by omega
  rw [Nat.min_self]
  rw [hmin] at hpending
  simp only [Lines.read, hlines, hgot]
  refine ⟨hcounted', hcooked, hcarrier, rfl, hcur, ls, hls, ?_, ?_⟩
  · show cl.pending .t_rawq = _
    rw [hpending, update_of_ne (by decide), hraw]
  · have hcan : cl.pending .t_canq = (t₁.cl.pending .t_canq).drop u_count := by
      rw [hpending, update_self]
    have hedited : edited { t₁ with cl := cl } = edited t₁ := edited_congr rfl rfl rfl
    simp only [hcan, hedited, List.drop_eq_nil_iff]
    -- a part of the line, or all of it
    by_cases hmore : u_count < (t₁.cl.pending .t_canq).length
    · rw [if_pos hmore, if_neg (by omega)]
      rfl
    · rw [if_neg hmore, if_pos (by omega)]
      rfl

/-- A line is read. -/
theorem ttread {u_count : ℕ} {bytes : List Byte} (h : Follows cfree s)
    (hok : LineOk s (.ttread u_count)) (hu : u_count ≠ 0)
    (hs : s.t.ttread u_count u_count = some (bytes, t')) :
    Follows cfree {
      t := t'
      due := (s.due.read u_count).2
      want := s.want ++ [(s.due.read u_count).1]
      got := s.got ++ [some bytes] } := by
  obtain ⟨lay, free, hinv⟩ := h.counted.wf
  obtain ⟨ls, hls, hraw, hlines⟩ := h.queue
  have hcount : s.t.count .t_canq = 0 ↔ s.t.cl.pending .t_canq = [] := by
    rw [count, hinv.cc_eq, Int.natCast_eq_zero, List.length_eq_zero_iff]
  rw [Tty.ttread, h.carrier, if_neg (by decide)] at hs
  by_cases hcan : s.t.cl.pending .t_canq = []
  swap
  · rw [if_pos fun h0 => hcan (hcount.mp h0)] at hs
    rw [if_neg hcan] at hlines
    exact pass h.counted h.cooked h.carrier h.got h.cur hls hraw hlines (Nat.pos_of_ne_zero hu) hs
  rw [if_neg (not_not.mpr (hcount.mpr hcan))] at hs
  obtain ⟨⟨r, t₁⟩, hcanon, hs⟩ := Option.bind_eq_some_iff.mp hs
  have hcounted₁ := h.counted.canon hcanon
  -- there is a line, or the read would wait
  have hdel : s.t.t_delct ≠ 0 := by
    intro hdel
    rw [canon, if_pos hdel, if_pos h.carrier] at hcanon
    exact absurd hcanon (by simp)
  have hmem : 0o377 ∈ s.t.cl.pending .t_rawq := by
    by_contra hnot
    exact hdel (h.counted.zero_iff.mpr hnot)
  obtain ⟨line, ls, rfl⟩ : ∃ line ls', ls = line :: ls' := by
    refine List.exists_cons_of_ne_nil fun hnil => h.cur ?_
    rw [hraw, hnil] at hmem
    exact hmem
  obtain ⟨hline, hls⟩ := List.forall_mem_cons.mp hls
  have hsplit : s.t.cl.pending .t_rawq =
      line ++ 0o377 :: (ls.flatMap (fun l => l ++ [0o377]) ++ s.due.cur) := by
    rw [hraw, List.flatMap_cons, List.append_assoc, List.append_assoc]
    rfl
  have hfirst : firstLine s.t = line := by
    rw [firstLine, hsplit, List.takeWhile_append_of_pos, List.takeWhile_cons_of_neg (by decide),
      List.append_nil]
    intro c hc
    rw [bne_iff_ne]
    exact ne_of_mem_of_not_mem hc hline
  obtain ⟨hfits, hroom⟩ := hok (hcount.mpr hcan)
  rw [hfirst] at hfits hroom
  obtain ⟨canonb, hholds, hscan⟩ := scan_line
    (ls.flatMap (fun l => l ++ [0o377]) ++ s.due.cur) (Holds.nil s.t.canonb) h.counted.guard hline
    hfits
  obtain ⟨cl, hrun, -, hpending⟩ := canon_eq hinv hdel
  rw [List.length_nil, Nat.add_zero, ← hsplit] at hscan
  rw [hscan] at hrun hpending
  rw [hrun] at hcanon
  obtain ⟨rfl, rfl⟩ := Prod.mk.inj (Option.some.inj hcanon)
  have hrest : (s.t.cl.pending .t_rawq).length - line.length - 1 =
      (ls.flatMap (fun l => l ++ [0o377]) ++ s.due.cur).length := by
    rw [hsplit, List.length_append, List.length_cons]
    omega
  rw [hrest, hinv.nfree_eq] at hroom
  have hcan₁ : cl.pending .t_canq = edited s.t line := by
    rw [hpending, update_self, hcan, List.nil_append]
    simp only
    rw [hholds]
    exact List.take_of_length_le hroom
  have hraw₁ : cl.pending .t_rawq = ls.flatMap (fun l => l ++ [0o377]) ++ s.due.cur := by
    rw [hpending, update_of_ne (by decide), update_self]
  change (if (1 : ℕ) ≠ 0 then _ else _) = _ at hs
  rw [if_pos Nat.one_ne_zero] at hs
  refine pass hcounted₁ h.cooked h.carrier h.got h.cur hls hraw₁ ?_ (Nat.pos_of_ne_zero hu) hs
  rw [hlines, if_pos hcan, hcan₁, List.nil_append, List.map_cons]
  congr 1

/-- With a line due a read does not wait. -/
theorem ttread_isSome {u_count : ℕ} (h : Follows cfree s) (hu : u_count ≠ 0)
    (hdue : s.due.lines ≠ []) : (s.t.ttread u_count u_count).isSome := by
  have hpass : ∀ t₁, Counted (pool cfree) t₁ →
      (t₁.passLoop (t₁.rounds .t_canq) u_count u_count).isSome := by
    intro t₁ h₁
    obtain ⟨lay, free, hinv⟩ := h₁.wf
    obtain ⟨cl, hrun, -⟩ := passLoop_eq u_count u_count hinv rfl
      (Counted.rounds_lt h₁.wf .t_canq) (Nat.pos_of_ne_zero hu)
    rw [hrun]
    rfl
  obtain ⟨lay, free, hinv⟩ := h.counted.wf
  obtain ⟨ls, hls, hraw, hlines⟩ := h.queue
  rw [Tty.ttread, h.carrier, if_neg (by decide)]
  by_cases hcan : s.t.cl.pending .t_canq = []
  swap
  · -- characters are waiting in the canonical queue
    have hcount : s.t.count .t_canq ≠ 0 := by
      rw [count, hinv.cc_eq, ne_eq, Int.natCast_eq_zero, List.length_eq_zero_iff]
      exact hcan
    rw [if_pos hcount]
    exact hpass s.t h.counted
  have hcount : s.t.count .t_canq = 0 := by
    rw [count, hinv.cc_eq, hcan]
    rfl
  rw [if_neg (not_not.mpr hcount)]
  -- otherwise a delimiter is in the raw queue
  have hdel : s.t.t_delct ≠ 0 := by
    rw [ne_eq, h.counted.zero_iff, not_not, hraw]
    rw [hlines, if_pos hcan, List.nil_append, ne_eq, List.map_eq_nil_iff] at hdue
    obtain ⟨line, ls', rfl⟩ := List.exists_cons_of_ne_nil hdue
    simp
  obtain ⟨cl, hrun, -⟩ := canon_eq hinv hdel
  rw [hrun]
  have hcounted := h.counted.canon hrun
  exact hpass _ hcounted

/-- Every step keeps the lines. -/
theorem step {a : LineAct} (h : Follows cfree s) (ha : LineOk s a)
    (hs : lineStep be s a = some s') : Follows cfree s' := by
  cases a with
  | ttyinput fuel ac =>
    obtain ⟨t₁, hrun, rfl⟩ := Option.map_eq_some_iff.mp hs
    exact h.ttyinput ha hrun
  | ttread u_count =>
    obtain ⟨hu, hs⟩ := Option.ite_none_left_eq_some.mp hs
    obtain ⟨⟨bytes, t₁⟩, hrun, rfl⟩ := Option.map_eq_some_iff.mp hs
    exact h.ttread ha hu hrun
  | output a =>
    obtain ⟨t₁, hrun, rfl⟩ := Option.map_eq_some_iff.mp hs
    exact h.output (outStep_outputOnly h.counted.wf hrun)

end Follows

/-- Reads get the lines that have been typed, in order. -/
structure LinesKept (s : LineSys) : Prop where
  /-- All reads so far have got what was due. -/
  got : s.got = s.want
  /-- The next one gets some of the first line, and nothing of an empty line only. -/
  next : ∀ u_count bytes t', u_count ≠ 0 → LineOk s (.ttread u_count) →
    s.t.ttread u_count u_count = some (bytes, t') →
    ∃ line rest, s.due.lines = line :: rest ∧ bytes = line.take u_count ∧ (bytes = [] ↔ line = [])
  /-- If there is a line it does not wait. -/
  ready : ∀ u_count, u_count ≠ 0 → s.due.lines ≠ [] → (s.t.ttread u_count u_count).isSome

theorem Follows.linesKept {cfree : ℕ} {s : LineSys} (h : Follows cfree s) : LinesKept s := by
  refine ⟨h.got, fun u_count bytes t' hu hok hs => ?_,
    fun u_count hu hdue => h.ttread_isSome hu hdue⟩
  have hread : some bytes = (s.due.read u_count).1 := by
    have hgot := (h.ttread hok hu hs).got
    simp only [h.got, List.append_cancel_left_eq, List.cons.injEq, and_true] at hgot
    exact hgot
  rw [Lines.read] at hread
  split at hread
  · exact absurd hread (by simp)
  case h_2 line rest hlines =>
    have hbytes := Option.some.inj hread
    refine ⟨line, rest, hlines, hbytes, ?_⟩
    rw [hbytes, List.take_eq_nil_iff]
    exact or_iff_right hu

/-- The terminal before anything is typed, in these modes. -/
def LineSys.start (cfree : ℕ) (c_next : ℕ → ℕ) (info : ℕ → Byte) (flags : Word)
    (erase kill : Byte) : LineSys where
  t := { klopen cfree c_next info with t_flags := flags, t_erase := erase, t_kill := kill }
  due := {}
  want := []
  got := []

/-- A terminal that starts has no lines. -/
theorem counted_start {cfree : ℕ} (hcfree : 0 < cfree) (c_next : ℕ → ℕ) (info : ℕ → Byte)
    (flags : Word) (erase kill : Byte) :
    Counted (pool cfree) (LineSys.start cfree c_next info flags erase kill).t :=
  .empty (wf_klopen hcfree c_next info) rfl (pending_klopen hcfree c_next info .t_rawq) rfl

/-- As long as no line fills the buffer while it is edited, and the pool does not run out, reads
get the lines that have been typed. -/
theorem linesKept_of_reachable {cfree : ℕ} (hcfree : 0 < cfree) {c_next : ℕ → ℕ}
    {info : ℕ → Byte} {flags : Word} {erase kill : Byte} (hcooked : flags &&& RAW = 0)
    {s : LineSys}
    (h : Reachable (lineStep be) LineOk (.start cfree c_next info flags erase kill) s) :
    LinesKept s := by
  have hpending := pending_klopen hcfree c_next info
  have hinit : Follows cfree (.start cfree c_next info flags erase kill) := by
    refine ⟨counted_start hcfree c_next info flags erase kill, ?_, ?_, rfl, by simp [LineSys.start],
      [], by simp, ?_, ?_⟩
    · show (flags &&& RAW != 0) = false
      rw [hcooked]
      rfl
    · show ((ISOPEN ||| CARR_ON) &&& CARR_ON != 0) = true
      decide
    · exact hpending .t_rawq
    · show [] = (if (klopen cfree c_next info).cl.pending .t_canq = [] then []
        else [(klopen cfree c_next info).cl.pending .t_canq]) ++ _
      rw [if_pos (hpending .t_canq)]
      rfl
  exact (h.invariant hinit fun s a s' hs ha hstep => hs.step ha hstep).linesKept

/-- A line with a correction, an empty one, and a part of another, for three reads. -/
def typeLines : List LineAct :=
  [ascii 'a', ascii 'x', ascii '#', ascii '\r', CEOT, ascii 'b'].map (.ttyinput 9) ++
    [.ttread 1, .ttread 512, .ttread 512]

/-- Two lines are typed and read. -/
theorem linesKept_typeLines : ∃ s, runSteps (lineStep .bios) typeLines
      (.start 0x1000 (fun _ => 0) (fun _ => 0) (ECHO ||| CRMOD) (ascii '#') (ascii '@')) = some s ∧
    LinesKept s ∧ s.got = [some [ascii 'a'], some [ascii '\n'], some []] := by
  obtain ⟨s, hs, hgot⟩ := (Option.any_eq_true _ _).mp (show
    (checkedSteps (lineStep .bios) (fun s a => decide (LineOk s a)) typeLines
      (.start 0x1000 (fun _ => 0) (fun _ => 0) (ECHO ||| CRMOD) (ascii '#') (ascii '@'))).any
      (fun s => decide (s.got = [some [ascii 'a'], some [ascii '\n'], some []])) = true
    from by decide +kernel)
  refine ⟨s, runSteps_of_checkedSteps hs, ?_, of_decide_eq_true hgot⟩
  exact linesKept_of_reachable (by decide) (by decide)
    (Reachable.refl.of_checkedSteps (fun _ _ hcheck => of_decide_eq_true hcheck) hs)

/-! ## Lines that fill the buffer -/

/-- A line that fills the buffer with its last character is scanned without its delimiter. -/
theorem scan_full {pre w : List Byte} {c : Byte} {canonb : ℕ → Byte} (rest : List Byte)
    (h : Holds canonb w)
    (hguard : canonb 1 = 0) (hpre : 0o377 ∉ pre) (hc : c ≠ 0o377) (hfits : Fits t 254 w pre)
    (hfull : ((pre ++ [c]).foldl (feed t) w).length = 254) :
    ∃ canonb', Holds canonb' ((pre ++ [c]).foldl (feed t) w) ∧
      scan t (pre ++ c :: rest) (2 + w.length) canonb = (.full, 256, canonb', rest) := by
  induction pre generalizing w canonb with
  | nil =>
    obtain ⟨canonb', h', -, hscan⟩ := scan_cons (t := t) rest h hguard hc (fits_nil.mp hfits)
    refine ⟨canonb', h', ?_⟩
    rw [List.nil_append, hscan]
    exact if_pos hfull
  | cons d pre ih =>
    rw [List.mem_cons, not_or] at hpre
    obtain ⟨hw, hfits⟩ := fits_cons.mp hfits
    have hnext : (feed t w d).length < 254 := hfits [] List.nil_prefix
    obtain ⟨canonb₁, h₁, hguard₁, hscan⟩ :=
      scan_cons (t := t) (pre ++ c :: rest) h hguard (Ne.symm hpre.1) hw
    rw [if_neg (by omega)] at hscan
    rw [List.cons_append, List.cons_append, hscan]
    exact ih h₁ hguard₁ hpre.2 hfits hfull

/-- What a read does when the canonical queue is empty and `canon` has put a line there. -/
theorem ttread_of_canon {t₁ : Tty} {u_count : ℕ} (h : Wf P t) (hcarrier : t.is CARR_ON = true)
    (hcan : t.cl.pending .t_canq = []) (hrun : t.canon = some (1, t₁)) (h₁ : Wf P t₁)
    (hu : 0 < u_count) : ∃ t', t.ttread u_count u_count =
      some ((t₁.cl.pending .t_canq).take u_count, t') ∧
      t'.is CARR_ON = t₁.is CARR_ON ∧ t'.cl.pending .t_rawq = t₁.cl.pending .t_rawq ∧
      t'.cl.pending .t_canq = (t₁.cl.pending .t_canq).drop u_count := by
  obtain ⟨lay, free, hinv⟩ := h
  have hcount : ¬t.count .t_canq ≠ 0 := by
    rw [count, hinv.cc_eq, hcan, not_not]
    rfl
  have hlt := Counted.rounds_lt h₁ .t_canq
  obtain ⟨lay₁, free₁, hinv₁⟩ := h₁
  obtain ⟨cl, hpass, -, hpending⟩ := passLoop_eq u_count u_count hinv₁ rfl hlt hu
  have hmin : min u_count (u_count + 1) = u_count := by omega
  rw [hmin] at hpending
  rw [Nat.min_self] at hpass
  refine ⟨{ t₁ with cl := cl }, ?_, rfl, ?_, ?_⟩
  · rw [Tty.ttread, hcarrier, if_neg (by decide), if_neg hcount, hrun]
    exact hpass
  · show cl.pending .t_rawq = _
    rw [hpending, update_of_ne (by decide)]
  · show cl.pending .t_canq = _
    rw [hpending, update_self]

/-- After such a line a read finds the delimiter alone, and gets nothing. -/
theorem ttread_full {u_count : ℕ} {pre rest : List Byte} {c : Byte} (h : Counted P t)
    (hcarrier : t.is CARR_ON = true) (hcan : t.cl.pending .t_canq = [])
    (hraw : t.cl.pending .t_rawq = pre ++ c :: 0o377 :: rest) (hpre : 0o377 ∉ pre)
    (hc : c ≠ 0o377) (hfits : Fits t 254 [] pre)
    (hfull : (edited t (pre ++ [c])).length = 254)
    (hroom : ∀ lay free, Inv P t.cl lay free → 254 ≤ roomFor t free.length (rest.length + 1))
    (hu : 254 ≤ u_count) : ∃ t₁ t₂,
      t.ttread u_count u_count = some (edited t (pre ++ [c]), t₁) ∧
      t₁.ttread u_count u_count = some ([], t₂) := by
  obtain ⟨lay, free, hinv⟩ := h.wf
  have hdel : t.t_delct ≠ 0 := by
    rw [ne_eq, h.zero_iff, not_not, hraw]
    simp
  rw [edited, List.length_reverse] at hfull
  obtain ⟨canonb, hholds, hscan⟩ := scan_full (0o377 :: rest) (Holds.nil t.canonb) h.guard
    hpre hc hfits hfull
  obtain ⟨cl, hrun, hwf, hpending⟩ := canon_eq hinv hdel
  rw [List.length_nil, Nat.add_zero, ← hraw] at hscan
  rw [hscan] at hrun hpending
  have hline : cl.pending .t_canq = edited t (pre ++ [c]) := by
    rw [Holds, hfull] at hholds
    rw [hpending, update_self, hcan, List.nil_append]
    show (lineOf 256 canonb).take _ = _
    rw [hholds, List.take_of_length_le]
    · rfl
    · rw [List.length_reverse, hfull]
      exact hroom lay free hinv
  have hraw₁ : cl.pending .t_rawq = 0o377 :: rest := by
    rw [hpending, update_of_ne (by decide), update_self]
  have h₁ := h.canon hrun
  obtain ⟨t₁, hread, hcarrier₁, hrest, hcan₁⟩ :=
    ttread_of_canon h.wf hcarrier hcan hrun h₁.wf (show 0 < u_count by omega)
  have hlong : (edited t (pre ++ [c])).length ≤ u_count := by
    rw [edited, List.length_reverse, hfull]
    exact hu
  have hread' : t.ttread u_count u_count = some (edited t (pre ++ [c]), t₁) := by
    rw [hread]
    show some (List.take u_count (cl.pending .t_canq), t₁) = _
    rw [hline, List.take_of_length_le hlong]
  -- the delimiter is first in the raw queue now
  have hraw' : t₁.cl.pending .t_rawq = 0o377 :: rest := hrest.trans hraw₁
  have hcan' : t₁.cl.pending .t_canq = [] := by
    rw [hcan₁]
    show List.drop u_count (cl.pending .t_canq) = []
    rw [hline, List.drop_eq_nil_of_le hlong]
  have h₁' := h.ttread (show 0 < u_count by omega) hread'
  have hdel' : t₁.t_delct ≠ 0 := by
    rw [ne_eq, h₁'.zero_iff, not_not, hraw']
    exact List.mem_cons_self
  obtain ⟨lay', free', hinv'⟩ := h₁'.wf
  obtain ⟨cl', hrun', hwf', hpending'⟩ := canon_eq hinv' hdel'
  have hscan' : scan t₁ (t₁.cl.pending .t_rawq) 2 t₁.canonb = (.delimiter, 2, t₁.canonb, rest) := by
    rw [hraw', scan, if_pos rfl]
  rw [hscan'] at hrun' hpending'
  have hnil : cl'.pending .t_canq = [] := by
    rw [hpending', update_self, hcan']
    exact List.take_nil
  obtain ⟨t₂, hread₂, -⟩ := ttread_of_canon h₁'.wf (hcarrier₁.trans hcarrier) hcan' hrun'
    (h₁'.canon hrun').wf (show 0 < u_count by omega)
  refine ⟨t₁, t₂, hread', ?_⟩
  rw [hread₂]
  show some (List.take u_count (cl'.pending .t_canq), t₂) = _
  rw [hnil, List.take_nil]

/-- 254 characters with the newline. -/
def longLine : List Byte := List.replicate 253 (ascii 'a') ++ [ascii '\n']

theorem length_longLine : longLine.length = 254 := by
  rw [longLine, List.length_append, List.length_replicate, List.length_singleton]

/-- The line is typed, on a terminal that echoes nothing. -/
def typeLong : List LineAct := longLine.map (.ttyinput 9)

/-- Nothing in the long line is erased. -/
theorem edited_longLine (h : Cooked t) : Fits t 254 [] (List.replicate 253 (ascii 'a')) ∧
    edited t longLine = longLine := by
  have ordinary : ∀ c ∈ longLine, Ordinary c := by
    intro c hc
    simp only [longLine, List.mem_append, List.mem_replicate, List.mem_singleton] at hc
    rcases hc with ⟨-, rfl⟩ | rfl <;> exact ⟨by decide, by decide, by decide⟩
  obtain ⟨hfits, -⟩ := h.ordinary (n := 254) (List.replicate 253 (ascii 'a')) []
    (fun c hc => ordinary c (List.mem_append_left _ hc))
    (by rw [List.length_replicate, List.length_nil]; decide)
  obtain ⟨-, hfold⟩ := h.ordinary (n := 255) longLine [] ordinary
    (by rw [length_longLine, List.length_nil]; decide)
  refine ⟨hfits, ?_⟩
  rw [edited, hfold, List.append_nil, List.reverse_reverse]

/-- Whatever is typed and read, also without any room. -/
theorem counted_of_runSteps {as : List LineAct} {s s' : LineSys} (h : Counted P s.t)
    (hs : runSteps (lineStep be) as s = some s') : Counted P s'.t := by
  induction as generalizing s with
  | nil =>
    rw [← Option.some.inj hs]
    exact h
  | cons a as ih =>
    obtain ⟨s₁, hstep, hs⟩ := Option.bind_eq_some_iff.mp hs
    refine ih ?_ hs
    cases a with
    | ttyinput fuel ac =>
      obtain ⟨t₁, hrun, rfl⟩ := Option.map_eq_some_iff.mp hstep
      exact h.ttyinput hrun
    | ttread u_count =>
      obtain ⟨hu, hstep⟩ := Option.ite_none_left_eq_some.mp hstep
      obtain ⟨⟨bytes, t₁⟩, hrun, rfl⟩ := Option.map_eq_some_iff.mp hstep
      exact h.ttread (Nat.pos_of_ne_zero hu) hrun
    | output a =>
      obtain ⟨t₁, hrun, rfl⟩ := Option.map_eq_some_iff.mp hstep
      exact h.outStep hrun

/-- The second read finds the delimiter that the first one has left. -/
theorem not_linesKept_typeLong : ∃ s₁ s₂ s₃, runSteps (lineStep .bios) typeLong
      (.start 0x1000 (fun _ => 0) (fun _ => 0) 0 (ascii '#') (ascii '@')) = some s₁ ∧
    lineStep .bios s₁ (.ttread 512) = some s₂ ∧ lineStep .bios s₂ (.ttread 512) = some s₃ ∧
    s₃.got = [some longLine, some []] ∧ ¬LinesKept s₃ := by
  obtain ⟨s₁, hs₁, hend⟩ := (Option.any_eq_true _ _).mp (show
    (runSteps (lineStep .bios) typeLong
      (.start 0x1000 (fun _ => 0) (fun _ => 0) 0 (ascii '#') (ascii '@'))).any
      (fun s => decide ((s.t.cl.pending .t_rawq = longLine ++ [0o377] ∧
          s.t.cl.pending .t_canq = [] ∧ 1 ≤ s.t.cl.nfree ∧ s.t.is CARR_ON = true) ∧
        (s.t.mode RAW = false ∧ s.t.mode LCASE = false ∧ s.t.t_erase = ascii '#' ∧
          s.t.t_kill = ascii '@') ∧
        s.got = [] ∧ s.want = [] ∧ s.due = { lines := [longLine], cur := [] })) = true
    from by decide +kernel)
  obtain ⟨⟨hraw, hcan, hnfree, hcarrier⟩, ⟨hcooked, hlcase, herase, hkill⟩, hgot, hwant, hdue⟩ :=
    of_decide_eq_true hend
  have hcounted : Counted (pool 0x1000) s₁.t :=
    counted_of_runSteps (counted_start (by decide) _ _ _ _ _) hs₁
  obtain ⟨hfits, hedited⟩ := edited_longLine ⟨hcooked, hlcase, herase, hkill⟩
  have hroom : ∀ lay free, Inv (pool 0x1000) s₁.t.cl lay free →
      254 ≤ roomFor s₁.t free.length (([] : List Byte).length + 1) := by
    -- all blocks of the line but one, and a free one
    intro lay free hinv
    rw [hinv.nfree_eq] at hnfree
    have hlen : (s₁.t.cl.pending .t_rawq).length = 255 := by
      rw [hraw, List.length_append, length_longLine, List.length_singleton]
    rw [roomFor, hlen, List.length_nil]
    simp only [blocksFor]
    split <;> split <;> omega
  obtain ⟨t₁, t₂, hread₁, hread₂⟩ := ttread_full hcounted hcarrier hcan
    (show _ = List.replicate 253 (ascii 'a') ++ ascii '\n' :: 0o377 :: [] by
      rw [hraw, longLine, List.append_assoc]; rfl)
    (fun hmem => absurd (List.eq_of_mem_replicate hmem) (by decide)) (by decide) hfits
    (show (edited s₁.t longLine).length = 254 by
      rw [hedited, length_longLine]) hroom
    (show 254 ≤ 512 by decide)
  change _ = some (edited s₁.t longLine, t₁) at hread₁
  rw [hedited] at hread₁
  have htake : longLine.take 512 = longLine := List.take_of_length_le (by
    rw [length_longLine]
    decide)
  have hwhole : ¬512 < longLine.length := by
    rw [length_longLine]
    decide
  have hnext : s₁.due.read 512 = (some longLine, {}) := by
    rw [hdue, Lines.read]
    simp only [htake, if_neg hwhole]
  refine ⟨s₁, ⟨t₁, {}, [some longLine], [some longLine]⟩,
    ⟨t₂, {}, [some longLine, none], [some longLine, some []]⟩, hs₁, ?_, ?_, rfl, fun h => ?_⟩
  · rw [lineStep, if_neg (by decide), hread₁, hnext, hgot, hwant]
    rfl
  · rw [lineStep, if_neg (by decide), hread₂]
    rfl
  · -- the second read should have waited
    exact absurd h.got (by simp)

end UnixV6.Tty
