import Mathlib.Computability.Language
import UnixV6.Lib.Lines
import UnixV6.Usr.Strings

/-!
# Searching for a pattern (`usr/grep.c`)

The matcher tries a pattern at each place of a line, and a star with each number of characters. The
lines come from a buffer, which is filled up behind what is left of the last one.

A string is the list of its bytes before the `NUL`.
-/

open UnixV6.Usr

namespace UnixV6.Grep

/-! ## The matcher -/

/-- `matchstar`, with `matchhere` of what follows the star. -/
def matchstar (here : List Chr → Bool) (c : Chr) : List Chr → Bool
  | [] => here []
  | t :: text => here (t :: text) || ((t = c || c = ascii '.') && matchstar here c text)

/-- `matchhere`. -/
def matchhere : List Chr → List Chr → Bool
  | [], _ => true
  | [c], text =>
    if c = ascii '$' then text = []
    else match text with
      | [] => false
      | t :: _ => c = ascii '.' || c = t
  | c :: d :: re, text =>
    if d = ascii '*' then matchstar (matchhere re) c text
    else match text with
      | [] => false
      | t :: text => (c = ascii '.' || c = t) && matchhere (d :: re) text

/-- The loop of `match` over the places of the text. -/
def matchLoop (re : List Chr) : List Chr → Bool
  | [] => matchhere re []
  | t :: text => matchhere re (t :: text) || matchLoop re text

/-- `match`. -/
def matchText (re text : List Chr) : Bool :=
  match re with
  | [] => matchLoop [] text
  | c :: re' => if c = ascii '^' then matchhere re' text else matchLoop re text

/-! ## What a pattern means -/

/-- A character of a pattern, and whether a star follows it. -/
structure Item where
  c : Chr
  star : Bool
  deriving DecidableEq, Repr

/-- A pattern: whether it begins with a `^`, its items, and whether it ends with a `$`. -/
structure Pattern where
  bol : Bool
  items : List Item
  eol : Bool
  deriving DecidableEq, Repr

/-- The items of a pattern, and whether it ends with a `$`. -/
def items : List Chr → List Item × Bool
  | [] => ([], false)
  | [c] => if c = ascii '$' then ([], true) else ([⟨c, false⟩], false)
  | c :: d :: re =>
    if d = ascii '*' then (⟨c, true⟩ :: (items re).1, (items re).2)
    else (⟨c, false⟩ :: (items (d :: re)).1, (items (d :: re)).2)

/-- The pattern that a string writes. -/
def parse : List Chr → Pattern
  | [] => ⟨false, [], false⟩
  | c :: re =>
    if c = ascii '^' then ⟨true, (items re).1, (items re).2⟩
    else ⟨false, (items (c :: re)).1, (items (c :: re)).2⟩

/-- The strings of one character that `c` stands for. -/
def single (c : Chr) : Language Chr := {w | ∃ t, w = [t] ∧ (c = ascii '.' ∨ c = t)}

/-- The strings that an item stands for. -/
def Item.language (i : Item) : Language Chr :=
  if i.star then KStar.kstar (single i.c) else single i.c

/-- The strings that a pattern stands for, without its ends. -/
def Pattern.language (p : Pattern) : Language Chr := (p.items.map Item.language).prod

/-- A pattern occurs in a text; with `^` at its beginning, with `$` at its end. -/
def Pattern.OccursIn (p : Pattern) (text : List Chr) : Prop :=
  ∃ before occurrence after, text = before ++ occurrence ++ after ∧ occurrence ∈ p.language ∧
    (p.bol → before = []) ∧ (p.eol → after = [])

/-- What may follow the items. -/
def behind (eol : Bool) : Language Chr := if eol then 1 else ⊤

/-- The rest of the text a `$` allows. -/
theorem mem_behind {eol : Bool} {text : List Chr} :
    text ∈ behind eol ↔ (eol → text = []) := by
  cases eol
  · exact iff_of_true trivial nofun
  · exact ⟨fun h _ => h, fun h => h rfl⟩

/-- One pattern character matches one character of the text. -/
theorem cons_mem_single_mul {c t : Chr} {text : List Chr}
    {l : Language Chr} :
    t :: text ∈ single c * l ↔ (c = ascii '.' ∨ c = t) ∧ text ∈ l := by
  rw [Language.mem_mul]
  constructor
  · rintro ⟨_, ⟨u, rfl, hu⟩, w, hw, heq⟩
    obtain ⟨rfl, rfl⟩ := List.cons.inj heq
    exact ⟨hu, hw⟩
  · rintro ⟨hc, hmem⟩
    exact ⟨[t], ⟨t, rfl, hc⟩, text, hmem, rfl⟩

theorem nil_notMem_single_mul {c : Chr} {l : Language Chr} : [] ∉ single c * l := by
  rintro ⟨_, ⟨t, rfl, -⟩, w, -, heq⟩
  cases heq

/-- A star is nothing, or one character and the star again. -/
theorem kstar_mul (c : Chr) (l : Language Chr) :
    KStar.kstar (single c) * l = l + single c * (KStar.kstar (single c) * l) := by
  conv_lhs => rw [← Language.one_add_self_mul_kstar_eq_kstar]
  rw [add_mul, one_mul, mul_assoc]

/-! ## The matcher finds what the pattern means -/

/-- `matchstar` finds the star of a character, if `matchhere` finds what follows it. -/
theorem matchstar_iff {here : List Chr → Bool} {l : Language Chr}
    (hhere : ∀ text, here text = true ↔ text ∈ l) (c : Chr) (text : List Chr) :
    matchstar here c text = true ↔ text ∈ KStar.kstar (single c) * l := by
  rw [kstar_mul, Language.mem_add]
  induction text with
  | nil =>
    rw [matchstar, hhere]
    exact (or_iff_left nil_notMem_single_mul).symm
  | cons t text ih =>
    rw [matchstar, Bool.or_eq_true, Bool.and_eq_true, hhere, ih, cons_mem_single_mul,
      ← Language.mem_add, ← kstar_mul]
    simp only [Bool.or_eq_true, decide_eq_true_eq]
    have hcomm : t = c ∨ c = ascii '.' ↔ c = ascii '.' ∨ c = t := by
      rw [or_comm, eq_comm (a := t)]
    rw [hcomm]

/-- `matchhere` finds the items of a pattern at the beginning of the text. -/
theorem matchhere_iff (re text : List Chr) : matchhere re text = true ↔
    text ∈ ((items re).1.map Item.language).prod * behind (items re).2 := by
  fun_induction items re generalizing text with
  | case1 =>
    -- the empty pattern
    rw [List.map_nil, List.prod_nil, one_mul, mem_behind]
    simp [matchhere]
  | case2 =>
    -- a `$` at the end
    rw [List.map_nil, List.prod_nil, one_mul, mem_behind]
    simp [matchhere]
  | case3 c hc =>
    -- one character
    rw [List.map_singleton, List.prod_singleton]
    cases text with
    | nil => exact iff_of_false (by simp [matchhere, hc]) nil_notMem_single_mul
    | cons t text =>
      refine Iff.trans ?_ cons_mem_single_mul.symm
      rw [mem_behind]
      simp [matchhere, hc]
  | case4 c re ih =>
    -- a star
    rw [List.map_cons, List.prod_cons, mul_assoc]
    exact matchstar_iff ih c text
  | case5 c d re hd ih =>
    -- a character, and more
    rw [List.map_cons, List.prod_cons, mul_assoc]
    cases text with
    | nil => exact iff_of_false (by simp [matchhere, hd]) nil_notMem_single_mul
    | cons t text =>
      refine Iff.trans ?_ cons_mem_single_mul.symm
      rw [← ih]
      simp [matchhere, hd]

/-- The loop of `match` finds the pattern at any place. -/
theorem matchLoop_iff (re text : List Chr) : matchLoop re text = true ↔
    ∃ before after, text = before ++ after ∧ matchhere re after = true := by
  induction text with
  | nil =>
    rw [matchLoop]
    constructor
    · intro h
      exact ⟨[], [], rfl, h⟩
    · rintro ⟨before, after, heq, h⟩
      obtain ⟨-, rfl⟩ := List.append_eq_nil_iff.mp heq.symm
      exact h
  | cons t text ih =>
    rw [matchLoop, Bool.or_eq_true, ih]
    constructor
    · rintro (h | ⟨before, after, rfl, h⟩)
      · exact ⟨[], t :: text, rfl, h⟩
      · exact ⟨t :: before, after, rfl, h⟩
    · rintro ⟨before, after, heq, h⟩
      cases before with
      | nil => exact .inl (by rwa [heq])
      | cons u before => exact .inr ⟨before, after, (List.cons.inj heq).2, h⟩

/-- An occurrence in terms of what `matchhere` looks for. -/
theorem Pattern.occursIn_iff {p : Pattern} {text : List Chr} : p.OccursIn text ↔
    ∃ before after, text = before ++ after ∧ after ∈ p.language * behind p.eol ∧
      (p.bol → before = []) := by
  constructor
  · rintro ⟨before, occurrence, after, rfl, hmem, hbol, heol⟩
    exact ⟨before, occurrence ++ after, List.append_assoc .., 
      Language.append_mem_mul hmem (mem_behind.mpr heol), hbol⟩
  · rintro ⟨before, _, rfl, ⟨occurrence, hmem, after, hafter, rfl⟩, hbol⟩
    exact ⟨before, occurrence, after, (List.append_assoc ..).symm, hmem, hbol,
      mem_behind.mp hafter⟩

/-- `match` returns 1 exactly if the pattern occurs in the text. -/
theorem matchText_iff (re text : List Chr) :
    matchText re text = true ↔ (parse re).OccursIn text := by
  rw [Pattern.occursIn_iff]
  fun_cases parse re with
  | case1 =>
    rw [matchText, matchLoop_iff]
    simp only [matchhere_iff]
    simp [Pattern.language, items]
  | case2 re =>
    -- with a `^`, at the beginning only
    rw [matchText, if_pos rfl, matchhere_iff]
    constructor
    · intro h
      exact ⟨[], text, rfl, h, fun _ => rfl⟩
    · rintro ⟨before, after, rfl, h, hbol⟩
      rwa [hbol rfl]
  | case3 c re hc =>
    rw [matchText, if_neg hc, matchLoop_iff]
    simp only [matchhere_iff]
    simp [Pattern.language]

example : matchText (['^', 'a', '.', '*', 'b', '$'].map ascii) (['a', 'b', 'x', 'b'].map ascii) =
    true := by decide

/-- Whether a pattern occurs in a text is what `match` finds out. -/
instance (re text : List Chr) : Decidable ((parse re).OccursIn text) :=
  decidable_of_iff _ (matchText_iff re text)

/-! ## The lines of a file -/

/-- The loop over the lines in `buf`, from `p` on: what is written, and what is left from `p`. -/
def lineLoop (pattern p : List Chr) : List Chr × List Chr :=
  match _h : strchr (ascii '\n') p with
  | none => ([], p)
  | some q =>
    let out := if matchText pattern (p.take q) then p.take (q + 1) else []
    let r := lineLoop pattern (p.drop (q + 1))
    (out ++ r.1, r.2)
termination_by p.length
decreasing_by
  have hp : p ≠ [] := by
    rintro rfl
    cases _h
  have := List.length_pos_of_ne_nil hp
  rw [List.length_drop]
  omega

/-- What is done with `n` bytes that have been read behind the ones in `buf`: what is written, and
what is left in `buf`. -/
def turn (pattern buf n : List Chr) : List Chr × List Chr :=
  let p := lineLoop pattern (buf ++ n)
  -- `if(p == buf) m = 0`
  if p.2.length = (buf ++ n).length then (p.1, []) else p

/-- The bytes that are asked for: `sizeof(buf)-m-1`. -/
def count (buf : List Chr) : ℕ := 1024 - buf.length - 1

/-- The loop of `grep` on a regular file, of which `read` returns what is asked for as long as it is
there: what is written. -/
def grepLoop (pattern : List Chr) : ℕ → List Chr → List Chr → List Chr
  | 0, _, _ => []
  | fuel + 1, file, buf =>
    if file.take (count buf) = [] then []
    else
      (turn pattern buf (file.take (count buf))).1 ++
        grepLoop pattern fuel (file.drop (count buf))
          (turn pattern buf (file.take (count buf))).2

/-- `grep` of a regular file. -/
def grep (pattern file : List Chr) : List Chr := grepLoop pattern (file.length + 1) file []

/-- The lines in which a pattern occurs. -/
def matching (pattern : List Chr) (lines : List (List Chr)) : List Chr :=
  lines.flatMap fun line => if (parse pattern).OccursIn line then line ++ [ascii '\n'] else []

/-- The lines of a file. -/
def lines (file : List Chr) : List (List Chr) := (Lines.split (ascii '\n') file).1

/-- The line loop prints the lines that match and stops behind the last newline. -/
theorem lineLoop_eq (pattern : List Chr) {p : List Chr} (h0 : 0 ∉ p) : lineLoop pattern p =
    (matching pattern (Lines.split (ascii '\n') p).1, (Lines.split (ascii '\n') p).2) := by
  fun_induction lineLoop pattern p with
  | case1 p h =>
    rw [Lines.split_of_notMem ((strchr_eq_none h0).mp h)]
    rfl
  | case2 p q h out r ih =>
    obtain ⟨hno, -, heq⟩ := strchr_eq_some h
    have htake : p.take (q + 1) = p.take q ++ [ascii '\n'] := by
      conv_lhs => rw [heq]
      have hq : (p.take q).length = q := by
        have hlen := congrArg List.length heq
        simp only [List.length_append, List.length_cons, List.length_drop, List.length_take]
          at hlen ⊢
        omega
      rw [List.take_append, hq, List.take_of_length_le (by omega)]
      simp
    have ih := ih fun hmem => h0 (List.mem_of_mem_drop hmem)
    have hsplit : Lines.split (ascii '\n') p =
        (p.take q :: (Lines.split (ascii '\n') (p.drop (q + 1))).1,
          (Lines.split (ascii '\n') (p.drop (q + 1))).2) := by
      conv_lhs => rw [heq]
      exact Lines.split_line hno
    rw [hsplit]
    simp only [out, r, ih, htake, matching, List.flatMap_cons, ← matchText_iff, dite_eq_ite]

/-- A turn prints the lines that are complete, and keeps what is behind them; without a complete
line it keeps nothing. -/
theorem turn_eq (pattern : List Chr) {buf n : List Chr} (h0 : 0 ∉ buf ++ n) :
    turn pattern buf n = (matching pattern (lines (buf ++ n)),
      if ascii '\n' ∈ buf ++ n then (Lines.split (ascii '\n') (buf ++ n)).2 else []) := by
  unfold turn
  rw [lineLoop_eq pattern h0]
  by_cases hmem : ascii '\n' ∈ buf ++ n
  · rw [if_neg (Lines.length_rest_lt hmem).ne, if_pos hmem]
    rfl
  · rw [Lines.split_of_notMem hmem, if_pos rfl, if_neg hmem, lines, Lines.split_of_notMem hmem]

/-- Whether a line has room in the buffer, with its newline. -/
def Fits (line : List Chr) : Prop := line.length + 1 < 1024

instance (line : List Chr) : Decidable (Fits line) := inferInstanceAs (Decidable (_ < 1024))

/-- Where the loop stands: `buf` has no newline, and room for at least one byte. -/
structure Ready (file buf : List Chr) : Prop where
  file_nul : 0 ∉ file
  buf_nul : 0 ∉ buf
  line : ascii '\n' ∉ buf
  room : buf.length < 1023

/-- The lines are judged one by one. -/
theorem matching_append (pattern : List Chr) (l m : List (List Chr)) :
    matching pattern (l ++ m) = matching pattern l ++ matching pattern m := List.flatMap_append

/-- Text read in two parts has the lines of both. -/
theorem lines_append (s t : List Chr) :
    lines (s ++ t) = lines s ++ lines ((Lines.split (ascii '\n') s).2 ++ t) :=
  congrArg Prod.fst (Lines.split_append s t)

theorem lines_eq_nil {s : List Chr} (h : ascii '\n' ∉ s) : lines s = [] :=
  Lines.split_fst_eq_nil.mpr h

/-- What is in front of a newline goes into the line. -/
theorem lines_append_of_notMem {s t : List Chr} (hs : ascii '\n' ∉ s) (ht : ascii '\n' ∈ t) :
    ∃ line rest, lines t = line :: rest ∧ lines (s ++ t) = (s ++ line) :: rest := by
  rcases Lines.exists_line (ascii '\n') t with hno | ⟨line, u, hline, rfl⟩
  · exact absurd ht hno
  · have hmem : ascii '\n' ∉ s ++ line := by simp [hs, hline]
    refine ⟨line, lines u, congrArg Prod.fst (Lines.split_line hline), ?_⟩
    rw [← List.append_assoc]
    exact congrArg Prod.fst (Lines.split_line hmem)

theorem Ready.count_pos {file buf : List Chr} (h : Ready file buf) : 0 < count buf := by
  have hroom := h.room
  unfold count
  omega

/-- `read` returns nothing only at the end of the file. -/
theorem Ready.read_eq_nil {file buf : List Chr} (h : Ready file buf) :
    file.take (count buf) = [] ↔ file = [] := by
  rw [List.take_eq_nil_iff]
  exact or_iff_right h.count_pos.ne'

/-- A turn that finds a newline prints the lines in the buffer. All of them fit. -/
theorem Ready.turn {file buf : List Chr} (pattern : List Chr) (h : Ready file buf)
    (hmem : ascii '\n' ∈ buf ++ file.take (count buf)) :
    Ready (file.drop (count buf)) (turn pattern buf (file.take (count buf))).2 ∧
      (Grep.turn pattern buf (file.take (count buf))).1 =
        matching pattern (lines (buf ++ file.take (count buf))) ∧
      lines (buf ++ file) = lines (buf ++ file.take (count buf)) ++
        lines ((Grep.turn pattern buf (file.take (count buf))).2 ++ file.drop (count buf)) ∧
      ∀ line ∈ lines (buf ++ file.take (count buf)), Fits line := by
  -- the buffer does not overflow
  have hlen : (buf ++ file.take (count buf)).length ≤ 1023 := by
    have hroom := h.room
    simp only [List.length_append, List.length_take, count]
    omega
  have h0 : 0 ∉ buf ++ file.take (count buf) := by
    simp only [List.mem_append, not_or]
    exact ⟨h.buf_nul, fun hmem => h.file_nul (List.mem_of_mem_take hmem)⟩
  -- the rest of the file is read later
  have hfile : buf ++ file = buf ++ file.take (count buf) ++ file.drop (count buf) := by
    rw [List.append_assoc, List.take_append_drop]
  rw [turn_eq pattern h0, if_pos hmem]
  have hparts := Lines.flatten_split (ascii '\n') (buf ++ file.take (count buf))
  refine ⟨⟨fun hin => h.file_nul (List.mem_of_mem_drop hin), ?_, Lines.notMem_rest _, ?_⟩, rfl,
    by rw [hfile, lines_append], ?_⟩
  -- what is kept of the buffer is the part behind its last newline
  · intro hin
    exact h0 (hparts ▸ List.mem_append_right _ hin)
  · exact (Lines.length_rest_lt hmem).trans_le hlen
  · -- a line in the buffer is no longer than the buffer
    intro line hline
    have hsub : (line ++ [ascii '\n']).Sublist (buf ++ file.take (count buf)) := by
      rw [← hparts]
      have hpiece := List.mem_map_of_mem (f := (· ++ [ascii '\n'])) hline
      exact (List.sublist_flatten_of_mem hpiece).trans (List.sublist_append_left _ _)
    have hle := hsub.length_le
    rw [List.length_append, List.length_singleton] at hle
    unfold Fits
    omega

/-- A turn that finds none keeps nothing; if it is not the last one, the buffer is full. -/
theorem Ready.turn_full {file buf : List Chr} (pattern : List Chr) (h : Ready file buf)
    (hno : ascii '\n' ∉ buf ++ file.take (count buf)) :
    Ready (file.drop (count buf)) [] ∧
      Grep.turn pattern buf (file.take (count buf)) = ([], []) ∧
      (file.drop (count buf) ≠ [] → (buf ++ file.take (count buf)).length = 1023) := by
  have h0 : 0 ∉ buf ++ file.take (count buf) := by
    simp only [List.mem_append, not_or]
    exact ⟨h.buf_nul, fun hmem => h.file_nul (List.mem_of_mem_take hmem)⟩
  refine ⟨⟨fun hin => h.file_nul (List.mem_of_mem_drop hin), List.not_mem_nil, List.not_mem_nil,
    by decide⟩, ?_, fun hne => ?_⟩
  · rw [turn_eq pattern h0, if_neg hno, lines_eq_nil hno]
    rfl
  · have hlt : count buf < file.length := by
      by_contra hge
      exact hne (List.drop_eq_nil_of_le (not_lt.mp hge))
    have hroom := h.room
    rw [List.length_append, List.length_take, min_eq_left hlt.le, count]
    omega

/-- The empty pattern prints every line. -/
theorem matching_nil (l : List (List Chr)) : matching [] l = l.flatMap (· ++ [ascii '\n']) := by
  have hall : ∀ line : List Chr, (parse []).OccursIn line := fun line =>
    (matchText_iff [] line).mp (by cases line <;> rfl)
  simp only [matching, hall, if_true]

/-- The lines are printed if all of them fit. -/
theorem Ready.grepLoop_eq {pattern file buf : List Chr} {fuel : ℕ} (h : Ready file buf)
    (hfuel : file.length < fuel) (hfits : ∀ line ∈ lines (buf ++ file), Fits line) :
    grepLoop pattern fuel file buf = matching pattern (lines (buf ++ file)) := by
  induction fuel generalizing file buf with
  | zero => omega
  | succ fuel ih =>
    rw [grepLoop]
    split_ifs with hread
    · -- the end of the file
      rw [h.read_eq_nil.mp hread, List.append_nil, lines_eq_nil h.line]
      rfl
    · have hcount := h.count_pos
      have hshort : (file.drop (count buf)).length < fuel := by
        have hpos := List.length_pos_of_ne_nil (mt h.read_eq_nil.mpr hread)
        rw [List.length_drop]
        omega
      by_cases hmem : ascii '\n' ∈ buf ++ file.take (count buf)
      · obtain ⟨hready, hout, hlines, -⟩ := h.turn pattern hmem
        rw [hlines] at hfits ⊢
        rw [hout, matching_append,
          ih hready hshort fun line hline => hfits line (List.mem_append_right _ hline)]
      · obtain ⟨hready, hturn, hfull⟩ := h.turn_full pattern hmem
        have hfile : buf ++ file = buf ++ file.take (count buf) ++ file.drop (count buf) := by
          rw [List.append_assoc, List.take_append_drop]
        -- a newline further on would end a line that does not fit
        have hnone : ascii '\n' ∉ file.drop (count buf) := by
          intro hin
          obtain ⟨line, rest, -, hline⟩ := lines_append_of_notMem hmem hin
          have hlong := hfits (buf ++ file.take (count buf) ++ line) (by
            rw [hfile, hline]
            exact List.mem_cons_self)
          unfold Fits at hlong
          rw [List.length_append, hfull (List.ne_nil_of_mem hin)] at hlong
          omega
        have hlast := ih hready hshort (by
          rw [List.nil_append, lines_eq_nil hnone]
          exact List.forall_mem_nil _)
        rw [hturn, hlast, List.nil_append, List.nil_append, hfile, lines_append,
          lines_eq_nil hmem, Lines.split_of_notMem hmem, ← hfile, lines_eq_nil hnone,
          lines_eq_nil (s := buf ++ file)]
        · rfl
        · rw [hfile, List.mem_append, not_or]
          exact ⟨hmem, hnone⟩

/-- The empty pattern prints all lines, but not those that do not fit. -/
theorem Ready.grepLoop_lt {file buf : List Chr} {fuel : ℕ} (h : Ready file buf)
    (hfuel : file.length < fuel) :
    (grepLoop [] fuel file buf).length ≤ (matching [] (lines (buf ++ file))).length ∧
      ((∃ line ∈ lines (buf ++ file), ¬ Fits line) →
        (grepLoop [] fuel file buf).length < (matching [] (lines (buf ++ file))).length) := by
  induction fuel generalizing file buf with
  | zero => omega
  | succ fuel ih =>
    by_cases hall : ∀ line ∈ lines (buf ++ file), Fits line
    · rw [h.grepLoop_eq hfuel hall]
      exact ⟨le_rfl, fun ⟨line, hline, hno⟩ => absurd (hall line hline) hno⟩
    suffices (grepLoop [] (fuel + 1) file buf).length < (matching [] (lines (buf ++ file))).length
      from ⟨this.le, fun _ => this⟩
    push Not at hall
    obtain ⟨line, hline, hlong⟩ := hall
    have hne : file ≠ [] := by
      rintro rfl
      rw [List.append_nil, lines_eq_nil h.line] at hline
      exact List.not_mem_nil hline
    have hcount := h.count_pos
    have hshort : (file.drop (count buf)).length < fuel := by
      have hpos := List.length_pos_of_ne_nil hne
      rw [List.length_drop]
      omega
    rw [grepLoop, if_neg (mt h.read_eq_nil.mp hne)]
    by_cases hmem : ascii '\n' ∈ buf ++ file.take (count buf)
    · -- the line is behind those in the buffer
      obtain ⟨hready, hout, hlines, hfits⟩ := h.turn [] hmem
      rw [hlines] at hline ⊢
      rw [hout, matching_append, List.length_append, List.length_append]
      rcases List.mem_append.mp hline with hin | hin
      · exact absurd (hfits line hin) hlong
      · exact Nat.add_lt_add_left ((ih hready hshort).2 ⟨line, hin, hlong⟩) _
    · obtain ⟨hready, hturn, hfull⟩ := h.turn_full [] hmem
      have hfile : buf ++ file = buf ++ file.take (count buf) ++ file.drop (count buf) := by
        rw [List.append_assoc, List.take_append_drop]
      have hin : ascii '\n' ∈ file.drop (count buf) := by
        by_contra hnone
        have hnil : lines (buf ++ file) = [] := by
          apply lines_eq_nil
          rw [hfile, List.mem_append, not_or]
          exact ⟨hmem, hnone⟩
        rw [hnil] at hline
        exact List.not_mem_nil hline
      -- the beginning of the line is dropped
      obtain ⟨first, rest, hrest, hlines⟩ := lines_append_of_notMem hmem hin
      have hle := (ih hready hshort).1
      have hlen := hfull (List.ne_nil_of_mem hin)
      rw [List.nil_append, hrest, matching_nil, List.flatMap_cons] at hle
      rw [hturn, hfile, hlines, matching_nil, List.flatMap_cons]
      simp only [List.length_append, List.length_nil] at hle hlen ⊢
      omega

/-- `grep` of a regular file prints the lines in which the pattern occurs, for every pattern,
exactly if every line of the file has room in the buffer. -/
theorem grep_iff (file : List Chr) (h0 : 0 ∉ file) :
    (∀ pattern, grep pattern file = matching pattern (lines file)) ↔
      ∀ line ∈ lines file, Fits line := by
  have hready : Ready file [] := ⟨h0, List.not_mem_nil, List.not_mem_nil, by decide⟩
  constructor
  · intro h
    by_contra hlong
    push Not at hlong
    have hlt := (hready.grepLoop_lt (Nat.lt_succ_self _)).2 hlong
    have hgrep := h []
    rw [grep] at hgrep
    rw [hgrep, List.nil_append] at hlt
    exact lt_irrefl _ hlt
  · intro hfits pattern
    exact hready.grepLoop_eq (Nat.lt_succ_self _) hfits

/-- Two lines, and a third one that does not end. -/
def threeLines : List Chr := ['a', 'b', '\n', 'b', 'a', '\n', 'b'].map ascii

/-- The pattern `b$` selects the one line that ends in `b`. -/
theorem grep_iff_threeLines : grep (['b', '$'].map ascii) threeLines = ['a', 'b', '\n'].map ascii :=
  ((grep_iff threeLines (by decide)).mpr (by decide) _).trans (by decide)

end UnixV6.Grep
