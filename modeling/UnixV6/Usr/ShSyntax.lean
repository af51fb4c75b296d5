import Mathlib
import UnixV6.Usr.Sh

/-!
# The grammar of the shell (`usr/sh.c`)

A line is cut into tokens. A grammar says which rows of tokens are a command, and what tree a
command has. The parser by recursive descent takes the commands of the grammar and no others, and
its tree is that of the grammar: no derivation is missed for the one token it looks ahead.

What the parser calls again on what is left of the line is measured in tokens. It never calls
itself more often than they allow.
-/

namespace UnixV6.Sh

open Usr

variable {s s' : List Chr} {n m : ℕ} {t cmd : Cmd}

/-! ## Blanks -/

theorem skip_skip (s : List Chr) : skip (skip s) = skip s := by
  apply List.dropWhile_idempotent

theorem length_skip_le (s : List Chr) : (skip s).length ≤ s.length :=
  (List.dropWhile_sublist _).length_le

theorem gettoken_skip (s : List Chr) : gettoken (skip s) = gettoken s := by
  rw [gettoken, gettoken, skip_skip]

theorem gettoken_eq_nil (h : skip s = []) : gettoken s = ⟨0, [], [], []⟩ := by
  rw [gettoken, h]

/-- A word has a character at least. -/
theorem length_wordEnd_lt {c : Chr} (hblank : c ∉ whitespace) (hsym : c ∉ symbols) :
    (wordEnd (c :: s)).length < (c :: s).length := by
  rw [wordEnd, List.dropWhile_cons_of_pos (by simp [hblank, hsym])]
  exact Nat.lt_succ_of_le (List.dropWhile_sublist _).length_le

/-- The first character behind the blanks is not a blank. -/
theorem head_skip {c : Chr} (h : skip s = c :: s') : c ∉ whitespace := by
  have hne : skip s ≠ [] := by simp [h]
  have hblank := List.head_dropWhile_not (fun c => decide (c ∈ whitespace)) hne
  have hhead : (skip s).head hne = c := by simp [h]
  rw [← hhead]
  exact of_decide_eq_false hblank

/-- Whatever its value, a token has a character at least. -/
theorem length_ps_lt (h : skip s ≠ []) : (gettoken s).ps.length < s.length := by
  apply Nat.lt_of_lt_of_le _ (length_skip_le s)
  obtain ⟨c, t, hs⟩ := List.exists_cons_of_ne_nil h
  have hle := length_skip_le t
  have hle' := length_skip_le t.tail
  have htail : t.tail.length ≤ t.length := by simp
  rw [gettoken, hs]
  dsimp only
  split_ifs with hsingle hgt happend
  · exact Nat.lt_succ_of_le hle
  · exact Nat.lt_succ_of_le (hle'.trans htail)
  · exact Nat.lt_succ_of_le hle
  · apply Nat.lt_of_le_of_lt (length_skip_le _)
    apply length_wordEnd_lt (head_skip hs)
    -- The symbols are those that are a token by themselves, and `>`.
    have hsymbols : ∀ c ∈ symbols, c ∈ single ∨ c = ascii '>' := by decide
    exact fun hc => (hsymbols c hc).elim hsingle hgt

/-! ## Tokens -/

/-- A token: a symbol, `+` for `>>`, or a word. -/
inductive Token
  | sym (c : Chr)
  | word (w : Word)
  deriving DecidableEq, Repr

/-- The token that `gettoken` found. -/
def Gettoken.token (tok : Gettoken) : Token :=
  if tok.ret = ascii 'a' then .word tok.word else .sym tok.ret

/-- The tokens of a line. -/
def lex (s : List Chr) : List Token :=
  if _h : skip s = [] then [] else (gettoken s).token :: lex (gettoken s).ps
termination_by s.length
decreasing_by exact length_ps_lt _h

/-- Whether a row of tokens begins with one of the symbols. -/
def starts (toks : List Chr) : List Token → Bool
  | .sym c :: _ => toks.contains (if c = ascii '+' then ascii '>' else c)
  | _ => false

theorem lex_nil (h : skip s = []) : lex s = [] := by rw [lex, dif_pos h]

theorem lex_cons (h : skip s ≠ []) : lex s = (gettoken s).token :: lex (gettoken s).ps := by
  rw [lex, dif_neg h]

theorem lex_skip (s : List Chr) : lex (skip s) = lex s := by
  by_cases h : skip s = []
  · rw [lex_nil h, lex_nil (by rw [skip_skip, h])]
  · rw [lex_cons h, lex_cons (by rwa [skip_skip]), gettoken_skip]

theorem lex_eq_nil : lex s = [] ↔ skip s = [] := by
  refine ⟨fun h => ?_, lex_nil⟩
  by_contra hne
  rw [lex_cons hne] at h
  cases h

/-- What is in front of a token is found again. -/
theorem lex_eq_cons {tok : Token} {ts : List Token} (h : lex s = tok :: ts) :
    skip s ≠ [] ∧ (gettoken s).token = tok ∧ lex (gettoken s).ps = ts := by
  have hne : skip s ≠ [] := fun hnil => by simp [lex_nil hnil] at h
  rw [lex_cons hne] at h
  exact ⟨hne, List.cons.inj h⟩

/-- The value of `gettoken` behind the blanks. -/
theorem gettoken_ret {c : Chr} (h : skip s = c :: s') :
    (c ∈ symbols ∧ ((gettoken s).ret = c ∨ c = ascii '>' ∧ (gettoken s).ret = ascii '+')) ∨
      (c ∉ symbols ∧ (gettoken s).ret = ascii 'a') := by
  rw [gettoken, h]
  dsimp only
  split_ifs with hsingle hgt happend
  · have hsymbols : ∀ c ∈ single, c ∈ symbols := by decide
    exact .inl ⟨hsymbols c hsingle, .inl rfl⟩
  · exact .inl ⟨hgt ▸ by decide, .inr ⟨hgt, rfl⟩⟩
  · exact .inl ⟨hgt ▸ by decide, .inl rfl⟩
  · have hsymbols : ∀ c ∈ symbols, c ∈ single ∨ c = ascii '>' := by decide
    exact .inr ⟨fun hc => (hsymbols c hc).elim hsingle hgt, rfl⟩

/-- `peek` looks at the next token. -/
theorem peek_eq {toks : List Chr} (htoks : toks ⊆ symbols) (s : List Chr) :
    peek s toks = starts toks (lex s) := by
  rw [peek]
  split
  · next hnil => rw [lex_nil hnil, starts]; simp
  · next c s' hs =>
    rw [lex_cons (by simp [hs]), Gettoken.token]
    rcases gettoken_ret hs with ⟨hc, hret | ⟨rfl, hret⟩⟩ | ⟨hc, hret⟩
    · have ha : ∀ c ∈ symbols, c ≠ ascii 'a' ∧ c ≠ ascii '+' := by decide
      obtain ⟨hword, happend⟩ := ha c hc
      rw [hret, if_neg hword, starts, if_neg happend, List.contains_eq_mem]
    · rw [hret, if_neg (by decide), starts, if_pos rfl, List.contains_eq_mem]
    · rw [hret, if_pos rfl, starts]
      · simpa using fun hmem => hc (htoks hmem)
      · simp

/-- `gettoken` gives 0 at the end only. -/
theorem ret_eq_zero : (gettoken s).ret = 0 ↔ lex s = [] := by
  rw [lex_eq_nil]
  refine ⟨fun h => ?_, fun h => by rw [gettoken_eq_nil h]⟩
  by_contra hne
  obtain ⟨c, t, hs⟩ := List.exists_cons_of_ne_nil hne
  have hzero : ∀ c ∈ symbols, c ≠ 0 := by decide
  rcases gettoken_ret hs with ⟨hc, hret | ⟨rfl, hret⟩⟩ | ⟨hc, hret⟩
  · exact hzero c hc (hret ▸ h)
  · exact absurd (hret ▸ h) (by decide)
  · exact absurd (hret ▸ h) (by decide)

/-- A word is the next token if `gettoken` says so. -/
theorem lex_word (h : (gettoken s).ret = ascii 'a') :
    lex s = .word (gettoken s).word :: lex (gettoken s).ps := by
  have hne : skip s ≠ [] := fun hnil => by
    rw [gettoken_eq_nil hnil] at h
    exact absurd h (by decide)
  rw [lex_cons hne, Gettoken.token, if_pos h]

/-- The next token if `peek` found one of the symbols. -/
theorem lex_of_peek {toks : List Chr} (htoks : toks ⊆ symbols) (h : peek s toks) :
    ∃ c, lex s = .sym c :: lex (gettoken (skip s)).ps ∧ (gettoken (skip s)).ret = c ∧
      starts toks [.sym c] := by
  rw [peek_eq htoks] at h
  have hne : skip s ≠ [] := fun hnil => by simp [lex_nil hnil, starts] at h
  rw [gettoken_skip, lex_cons hne, Gettoken.token] at *
  split_ifs at h ⊢
  · simp [starts] at h
  · exact ⟨_, rfl, rfl, h⟩

/-- `peek` for one symbol. -/
theorem lex_of_peek_single {c : Chr} (hc : c ∈ single) (h : peek s [c]) :
    lex s = .sym c :: lex (gettoken (skip s)).ps := by
  have hsingle : ∀ c ∈ single, [c] ⊆ symbols ∧ c ≠ ascii '>' := by decide
  obtain ⟨hsymbols, hgt⟩ := hsingle c hc
  obtain ⟨c', hlex, -, hstarts⟩ := lex_of_peek hsymbols h
  rw [starts, List.contains_iff_mem, List.mem_singleton] at hstarts
  split_ifs at hstarts with happend
  · exact absurd hstarts.symm hgt
  · rwa [hstarts] at hlex

/-- What `gettoken` gives if the next token is a symbol. -/
theorem gettoken_of_sym {c : Chr} {ts : List Token} (h : lex s = .sym c :: ts) :
    (gettoken (skip s)).ret = c ∧ c ≠ ascii 'a' ∧ lex (gettoken (skip s)).ps = ts := by
  obtain ⟨-, htok, hts⟩ := lex_eq_cons h
  rw [Gettoken.token] at htok
  rw [gettoken_skip]
  split_ifs at htok with ha
  cases htok
  exact ⟨rfl, ha, hts⟩

/-- What `gettoken` gives if the next token is a word. -/
theorem gettoken_of_word {w : Word} {ts : List Token} (h : lex s = .word w :: ts) :
    (gettoken (skip s)).ret = ascii 'a' ∧ (gettoken (skip s)).word = w ∧
      lex (gettoken (skip s)).ps = ts := by
  obtain ⟨-, htok, hts⟩ := lex_eq_cons h
  rw [Gettoken.token] at htok
  rw [gettoken_skip]
  split_ifs at htok with ha
  exact ⟨ha, Token.word.inj htok, hts⟩

/-! ## The grammar -/

/-- The character of a redirection. -/
def Mode.tok : Mode → Chr
  | .O_READ => ascii '<'
  | .O_WRITE => ascii '>'
  | .O_APPEND => ascii '+'

/-- The descriptor that is redirected. -/
def Mode.fd : Mode → ℕ
  | .O_READ => 0
  | .O_WRITE => 1
  | .O_APPEND => 1

/-- A part of a simple command: an argument, or a redirection. -/
inductive Item
  | arg (w : Word)
  | redir (mode : Mode) (file : Word)

namespace Item

def tokens : Item → List Token
  | arg w => [.word w]
  | redir mode file => [.sym mode.tok, .word file]

/-- What a part adds to a command. A redirection goes around what was there. -/
def addTo (cmd : Cmd) : Item → Cmd
  | arg w => cmd.push w
  | redir mode file => .redir cmd file mode mode.fd

/-- Whether the part is a redirection. -/
def IsRedir : Item → Prop
  | arg _ => False
  | redir _ _ => True

end Item

/-- The parts of a line: one parser is for each. -/
inductive Nonterminal
  | line
  | pipe
  | exec
  deriving DecidableEq

/-- The grammar. A row of tokens is a command with a tree. -/
inductive Derives : Nonterminal → List Token → Cmd → Prop
  | simple (items : List Item)
      (hargs : (items.foldl Item.addTo (.exec [])).argv.length < MAXARGS) :
      Derives .exec (items.flatMap Item.tokens) (items.foldl Item.addTo (.exec []))
  | block {ts : List Token} {cmd : Cmd} (d : Derives .line ts cmd) (items : List Item)
      (hredirs : ∀ i ∈ items, i.IsRedir) :
      Derives .exec (.sym (ascii '(') :: ts ++ .sym (ascii ')') :: items.flatMap Item.tokens)
        (items.foldl Item.addTo cmd)
  | single {ts : List Token} {cmd : Cmd} (d : Derives .exec ts cmd) : Derives .pipe ts cmd
  | pipe {ts ts' : List Token} {left right : Cmd} (l : Derives .exec ts left)
      (r : Derives .pipe ts' right) :
      Derives .pipe (ts ++ .sym (ascii '|') :: ts') (.pipe left right)
  | backs {ts : List Token} {cmd : Cmd} (d : Derives .pipe ts cmd) (k : ℕ) :
      Derives .line (ts ++ .replicate k (.sym (ascii '&'))) (Cmd.back^[k] cmd)
  | list {ts ts' : List Token} {left right : Cmd} (l : Derives .pipe ts left) (k : ℕ)
      (r : Derives .line ts' right) :
      Derives .line (ts ++ .replicate k (.sym (ascii '&')) ++ .sym (ascii ';') :: ts')
        (.list (Cmd.back^[k] left) right)

/-! ## What the parser takes is a command -/

/-- What is behind a parser that gave a tree. -/
theorem exists_of_bind {α β : Type} {x : Except Stop α} {f : α → Except Stop β} {b : β}
    (h : (x >>= f) = .ok b) : ∃ a, x = .ok a ∧ f a = .ok b := by
  cases x with
  | error e => cases h
  | ok a => exact ⟨a, rfl, h⟩

/-- The redirections that `parseredirs` takes. -/
theorem parseredirs_sound (h : parseredirs n cmd s = .ok (t, s')) :
    ∃ items : List Item, (∀ i ∈ items, i.IsRedir) ∧ t = items.foldl Item.addTo cmd ∧
      lex s = items.flatMap Item.tokens ++ lex s' := by
  induction n generalizing cmd s with
  | zero => cases h
  | succ n ih =>
    rw [parseredirs] at h
    dsimp only at h
    split_ifs at h with hpeek hword
    · obtain ⟨c, hlex, hret, hc⟩ := lex_of_peek (by decide) hpeek
      obtain ⟨items, hredirs, rfl, hrest⟩ := ih h
      have hfile := lex_word (not_not.mp hword)
      -- The three symbols that the `switch` tells apart are those of the three modes.
      obtain ⟨mode, rfl⟩ : ∃ mode : Mode, c = mode.tok := by
        rw [starts, List.contains_iff_mem] at hc
        by_cases happend : c = ascii '+'
        · exact ⟨.O_APPEND, happend⟩
        · rw [if_neg happend, List.mem_cons, List.mem_singleton] at hc
          exact hc.elim (⟨.O_READ, ·⟩) (⟨.O_WRITE, ·⟩)
      refine ⟨.redir mode (gettoken (gettoken (skip s)).ps).word :: items, ?_, ?_, ?_⟩
      · exact List.forall_mem_cons.mpr ⟨trivial, hredirs⟩
      · rw [hret]
        cases mode <;> rfl
      · rw [hlex, hfile, hrest]
        rfl
    · obtain ⟨rfl, rfl⟩ := Prod.mk.inj (Except.ok.inj h)
      exact ⟨[], by simp, rfl, by simp [lex_skip]⟩

/-- Redirections go around the arguments. -/
theorem argv_redirs {items : List Item} (h : ∀ i ∈ items, i.IsRedir) :
    (items.foldl Item.addTo cmd).argv = cmd.argv := by
  induction items generalizing cmd with
  | nil => rfl
  | cons i items ih =>
    obtain ⟨hi, hrest⟩ := List.forall_mem_cons.mp h
    rw [List.foldl_cons, ih hrest]
    cases i with
    | arg w => cases hi
    | redir mode file => rfl

/-- The parts of a simple command that the loop of `parseexec` takes. -/
theorem parseargs_sound (h : parseargs n cmd s = .ok (t, s')) (hargs : cmd.argv.length < MAXARGS) :
    ∃ items : List Item, t = items.foldl Item.addTo cmd ∧ t.argv.length < MAXARGS ∧
      lex s = items.flatMap Item.tokens ++ lex s' := by
  induction n generalizing cmd s with
  | zero => cases h
  | succ n ih =>
    rw [parseargs] at h
    dsimp only at h
    split_ifs at h with hpeek hend hword hmany
    · obtain ⟨rfl, rfl⟩ := Prod.mk.inj (Except.ok.inj h)
      exact ⟨[], rfl, hargs, by simp [lex_skip]⟩
    · obtain ⟨rfl, rfl⟩ := Prod.mk.inj (Except.ok.inj h)
      -- There is nothing behind the end.
      rw [gettoken_skip, ret_eq_zero] at hend
      have hnil := lex_eq_nil.mp hend
      exact ⟨[], rfl, hargs, by rw [gettoken_skip, gettoken_eq_nil hnil, hend, lex_nil rfl]; rfl⟩
    · obtain ⟨⟨ret, s₁⟩, hredirs, hrest⟩ := exists_of_bind h
      rw [gettoken_skip] at *
      obtain ⟨redirs, hall, rfl, hlex₁⟩ := parseredirs_sound hredirs
      have hlex := lex_word (not_not.mp hword)
      obtain ⟨items, rfl, hlt, hlex₂⟩ := ih hrest (by rw [argv_redirs hall]; omega)
      refine ⟨.arg (gettoken s).word :: redirs ++ items, ?_, hlt, ?_⟩
      · rw [List.foldl_append]
        rfl
      · rw [hlex, hlex₁, hlex₂]
        simp [Item.tokens]

/-- A simple command. -/
theorem simple_sound {s₁ : List Chr} (hredirs : parseredirs n (.exec []) s = .ok (cmd, s₁))
    (hargs : parseargs n cmd s₁ = .ok (t, s')) :
    ∃ ts, Derives .exec ts t ∧ lex s = ts ++ lex s' := by
  obtain ⟨redirs, hall, rfl, hlex⟩ := parseredirs_sound hredirs
  obtain ⟨items, rfl, hlt, hlex₁⟩ := parseargs_sound hargs (by rw [argv_redirs hall]; decide)
  rw [← List.foldl_append] at hlt ⊢
  exact ⟨_, .simple _ hlt, by rw [hlex, hlex₁, List.flatMap_append, List.append_assoc]⟩

/-- The loop of `parseline`. -/
theorem parsebacks_sound (h : parsebacks n cmd s = .ok (t, s')) :
    ∃ k, t = Cmd.back^[k] cmd ∧ lex s = .replicate k (.sym (ascii '&')) ++ lex s' := by
  induction n generalizing cmd s with
  | zero => cases h
  | succ n ih =>
    rw [parsebacks] at h
    split_ifs at h with hpeek
    · have hlex := lex_of_peek_single (by decide) hpeek
      obtain ⟨k, rfl, hrest⟩ := ih h
      exact ⟨k + 1, rfl, by rw [hlex, hrest]; rfl⟩
    · obtain ⟨rfl, rfl⟩ := Prod.mk.inj (Except.ok.inj h)
      exact ⟨0, rfl, by simp [lex_skip]⟩

/-- What the parser of a part of the line takes. -/
def parse : Nonterminal → ℕ → List Chr → Parsed
  | .line => parseline
  | .pipe => parsepipe
  | .exec => parseexec

/-- What the parser takes is derived in the grammar. By induction on the calls in one another; the
four parsers call each other on fewer. -/
theorem parse_sound {N : Nonterminal} (h : parse N n s = .ok (t, s')) :
    ∃ ts, Derives N ts t ∧ lex s = ts ++ lex s' := by
  induction n using Nat.strong_induction_on generalizing N s t s' with
  | _ n ih =>
  -- without fuel nothing is parsed
  obtain _ | n := n
  · cases N <;> cases h
  cases N with
  -- a pipeline, `&` signs, and a line behind `;` if there is one
  | line =>
    rw [parse, parseline] at h
    obtain ⟨⟨left, s₁⟩, hpipe, h⟩ := exists_of_bind h
    obtain ⟨⟨left', s₂⟩, hbacks, h⟩ := exists_of_bind h
    obtain ⟨ts, d, hlex⟩ := ih n n.lt_succ_self (N := .pipe) hpipe
    obtain ⟨k, rfl, hlex₁⟩ := parsebacks_sound hbacks
    dsimp only at h
    split_ifs at h with hpeek
    · obtain ⟨⟨right, s₃⟩, hline, h⟩ := exists_of_bind h
      obtain ⟨rfl, rfl⟩ := Prod.mk.inj (Except.ok.inj h)
      obtain ⟨ts', d', hlex₂⟩ := ih n n.lt_succ_self (N := .line) hline
      refine ⟨_, .list d k d', ?_⟩
      rw [hlex, hlex₁, lex_of_peek_single (by decide) hpeek, hlex₂]
      simp
    · obtain ⟨rfl, rfl⟩ := Prod.mk.inj (Except.ok.inj h)
      exact ⟨_, .backs d k, by rw [hlex, hlex₁, lex_skip, List.append_assoc]⟩
  -- a command, and a pipeline behind `|` if there is one
  | pipe =>
    rw [parse, parsepipe] at h
    obtain ⟨⟨left, s₁⟩, hexec, h⟩ := exists_of_bind h
    obtain ⟨ts, d, hlex⟩ := ih n n.lt_succ_self (N := .exec) hexec
    dsimp only at h
    split_ifs at h with hpeek
    · obtain ⟨⟨right, s₂⟩, hpipe, h⟩ := exists_of_bind h
      obtain ⟨rfl, rfl⟩ := Prod.mk.inj (Except.ok.inj h)
      obtain ⟨ts', d', hlex₁⟩ := ih n n.lt_succ_self (N := .pipe) hpipe
      refine ⟨_, .pipe d d', ?_⟩
      rw [hlex, lex_of_peek_single (by decide) hpeek, hlex₁]
      simp
    · obtain ⟨rfl, rfl⟩ := Prod.mk.inj (Except.ok.inj h)
      exact ⟨_, .single d, by rw [hlex, lex_skip]⟩
  | exec =>
    rw [parse, parseexec] at h
    split_ifs at h with hpeek
    -- a block in parentheses, with its redirections
    · obtain _ | n := n
      · cases h
      rw [parseblock, if_pos (by rwa [peek, skip_skip])] at h
      obtain ⟨⟨cmd, s₁⟩, hline, h⟩ := exists_of_bind h
      dsimp only at h
      split_ifs at h with hrpar
      obtain ⟨ts, d, hlex⟩ := ih n (by omega) (N := .line) hline
      obtain ⟨items, hall, rfl, hlex₁⟩ := parseredirs_sound h
      refine ⟨_, .block d items hall, ?_⟩
      rw [lex_of_peek_single (by decide) hpeek, ← skip_skip, hlex,
        lex_of_peek_single (by decide) hrpar, hlex₁]
      simp
    -- a simple command
    · obtain ⟨⟨cmd, s₁⟩, hredirs, h⟩ := exists_of_bind h
      rw [← lex_skip]
      exact simple_sound hredirs h

/-! ## Commands are taken -/

/-- A row of tokens that is empty or begins with one of the symbols. -/
def Ends (toks : List Chr) : List Token → Prop
  | [] => True
  | tok :: _ => ∃ c ∈ toks, tok = .sym c

/-- The symbols behind a part of the line. -/
def Nonterminal.follow : Nonterminal → List Chr
  | line => [ascii ')']
  | pipe => [ascii ')', ascii '&', ascii ';']
  | exec => [ascii ')', ascii '&', ascii ';', ascii '|']

variable {ts rest : List Token} {toks toks' : List Chr}

theorem Ends.mono (h : Ends toks rest) (hsub : toks ⊆ toks') : Ends toks' rest := by
  cases rest with
  | nil => trivial
  | cons tok rest =>
    obtain ⟨c, hc, rfl⟩ := h
    exact ⟨c, hsub hc, rfl⟩

/-- Other symbols are not next. -/
theorem Ends.starts_eq_false (h : Ends toks rest)
    (hne : ∀ c ∈ toks, (if c = ascii '+' then ascii '>' else c) ∉ toks') :
    starts toks' rest = false := by
  cases rest with
  | nil => rfl
  | cons tok rest =>
    obtain ⟨c, hc, rfl⟩ := h
    rw [starts, List.contains_eq_mem]
    exact decide_eq_false (hne c hc)

/-- A redirection that is next is taken. -/
theorem parseredirs_redir {mode : Mode} {file : Word}
    (hlex : lex s = .sym mode.tok :: .word file :: ts) (n : ℕ) (cmd : Cmd) :
    ∃ s', lex s' = ts ∧
      parseredirs (n + 1) cmd s = parseredirs n (.redir cmd file mode mode.fd) s' := by
  obtain ⟨hret, -, hts⟩ := gettoken_of_sym hlex
  obtain ⟨hword, hfile, hts'⟩ := gettoken_of_word hts
  rw [gettoken_skip] at hword hfile hts'
  refine ⟨_, hts', ?_⟩
  have hpeek : starts [ascii '<', ascii '>'] (lex s) = true := by
    rw [hlex]
    cases mode <;> rfl
  have hredir : redircmd mode.tok cmd file = .redir cmd file mode mode.fd := by cases mode <;> rfl
  rw [parseredirs, peek_eq (by decide), if_pos hpeek]
  dsimp only
  rw [if_neg (not_not.mpr hword), hret, hfile, hredir]

/-- Without a redirection `parseredirs` returns the command. -/
theorem parseredirs_done (h : starts [ascii '<', ascii '>'] (lex s) = false) (n : ℕ) (cmd : Cmd) :
    parseredirs (n + 1) cmd s = .ok (cmd, skip s) := by
  rw [parseredirs, peek_eq (by decide), if_neg (Bool.not_eq_true _ ▸ h)]

/-- `parseredirs` takes all redirections that are next. -/
theorem parseredirs_complete (cmd : Cmd) {items : List Item} (hall : ∀ i ∈ items, i.IsRedir)
    (hlex : lex s = items.flatMap Item.tokens ++ rest)
    (hrest : starts [ascii '<', ascii '>'] rest = false) (hn : items.length < n) :
    ∃ s', parseredirs n cmd s = .ok (items.foldl Item.addTo cmd, s') ∧ lex s' = rest := by
  induction items generalizing n cmd s with
  | nil =>
    obtain ⟨n, rfl⟩ := Nat.exists_eq_add_one_of_ne_zero (Nat.ne_of_gt hn)
    have hlex : lex s = rest := hlex
    exact ⟨_, parseredirs_done (hlex ▸ hrest) n cmd, (lex_skip s).trans hlex⟩
  | cons i items ih =>
    obtain ⟨n, rfl⟩ := Nat.exists_eq_add_one_of_ne_zero (Nat.ne_of_gt (Nat.zero_lt_of_lt hn))
    obtain ⟨hi, hitems⟩ := List.forall_mem_cons.mp hall
    cases i with
    | arg w => cases hi
    | redir mode file =>
      obtain ⟨s₁, hlex₁, hstep⟩ := parseredirs_redir hlex n cmd
      rw [hstep]
      exact ih _ hitems hlex₁ (Nat.lt_of_succ_lt_succ hn)

/-- A symbol behind a simple command, or the end, ends its loop. -/
theorem parseargs_done (h : Ends Nonterminal.exec.follow (lex s)) (n : ℕ) (cmd : Cmd) :
    ∃ s', lex s' = lex s ∧ parseargs (n + 1) cmd s = .ok (cmd, s') := by
  rw [parseargs, peek_eq (by decide)]
  dsimp only
  by_cases hnil : lex s = []
  · have hend : (gettoken s).ret = 0 := ret_eq_zero.mpr hnil
    refine ⟨[], by rw [hnil, lex_nil rfl], ?_⟩
    rw [hnil, gettoken_skip, if_pos hend, gettoken_eq_nil (lex_eq_nil.mp hnil)]
    rfl
  · obtain ⟨tok, ts, hlex⟩ := List.exists_cons_of_ne_nil hnil
    rw [hlex] at h
    obtain ⟨c, hc, rfl⟩ := h
    refine ⟨skip s, lex_skip s, ?_⟩
    have hstarts : ∀ c ∈ Nonterminal.exec.follow,
        starts [ascii '|', ascii ')', ascii '&', ascii ';'] (.sym c :: ts) = true := by
      simp only [starts]
      decide
    rw [hlex, if_pos (hstarts c hc)]

/-- An argument that is next is taken, and the redirections behind it. -/
theorem parseargs_arg {w : Word} (hlex : lex s = .word w :: ts) (n : ℕ)
    (hargs : (cmd.push w).argv.length < MAXARGS) :
    ∃ s', lex s' = ts ∧ parseargs (n + 1) cmd s =
      (parseredirs n (cmd.push w) s' >>= fun p => parseargs n p.1 p.2) := by
  obtain ⟨hret, hw, hts⟩ := gettoken_of_word hlex
  refine ⟨_, hts, ?_⟩
  rw [parseargs, peek_eq (by decide), hlex, starts, if_neg (by simp)]
  · dsimp only
    rw [hret, hw, if_neg (by decide), if_neg (by decide), if_neg (Nat.not_le.mpr hargs)]
  · simp

/-- An argument is added to a simple command, and none is lost. -/
theorem length_argv_le (cmd : Cmd) (items : List Item) :
    cmd.argv.length ≤ (items.foldl Item.addTo cmd).argv.length := by
  have hpush : ∀ (cmd : Cmd) w, cmd.argv.length ≤ (cmd.push w).argv.length := by
    intro cmd w
    induction cmd with
    | exec argv => simp [Cmd.push, Cmd.argv]
    | redir cmd file mode fd ih => exact ih
    | _ => exact le_rfl
  induction items generalizing cmd with
  | nil => exact le_rfl
  | cons i items ih =>
    apply le_trans _ (ih _)
    cases i with
    | arg w => exact hpush cmd w
    | redir mode file => exact le_rfl

/-- The parts of a simple command are taken up to a symbol that ends it. The redirections in front
of the next argument are taken by `parseredirs`, which is called before the loop and at its end. -/
theorem simple_complete {items : List Item} (hlex : lex s = items.flatMap Item.tokens ++ rest)
    (hrest : Ends Nonterminal.exec.follow rest)
    (hargs : (items.foldl Item.addTo cmd).argv.length < MAXARGS)
    (hm : items.length < m) (hn : items.length < n) :
    ∃ s', (parseredirs m cmd s >>= fun p => parseargs n p.1 p.2) =
      .ok (items.foldl Item.addTo cmd, s') ∧ lex s' = rest := by
  -- induction on the items; the two loops use up one unit of fuel each
  induction items generalizing m n cmd s with
  | nil =>
    obtain ⟨m, rfl⟩ := Nat.exists_eq_add_one_of_ne_zero (Nat.ne_of_gt hm)
    obtain ⟨n, rfl⟩ := Nat.exists_eq_add_one_of_ne_zero (Nat.ne_of_gt hn)
    have hlex : lex (skip s) = rest := (lex_skip s).trans hlex
    -- nothing to redirect, no argument: both loops end
    rw [parseredirs_done (by rw [← lex_skip, hlex]; exact hrest.starts_eq_false (by decide)) m cmd]
    obtain ⟨s', hs', hdone⟩ := parseargs_done (hlex ▸ hrest) n cmd
    exact ⟨s', hdone, hs'.trans hlex⟩
  | cons i items ih =>
    obtain ⟨m, rfl⟩ := Nat.exists_eq_add_one_of_ne_zero (Nat.ne_of_gt (Nat.zero_lt_of_lt hm))
    obtain ⟨n, rfl⟩ := Nat.exists_eq_add_one_of_ne_zero (Nat.ne_of_gt (Nat.zero_lt_of_lt hn))
    have hm' := Nat.lt_of_succ_lt_succ hm
    have hn' := Nat.lt_of_succ_lt_succ hn
    cases i with
    -- an argument: the redirection loop ends, and the argument loop takes it
    | arg w =>
      have hlex : lex (skip s) = .word w :: (items.flatMap Item.tokens ++ rest) :=
        (lex_skip s).trans hlex
      have hpush := Nat.lt_of_le_of_lt (length_argv_le (cmd.push w) items) hargs
      rw [parseredirs_done (by rw [← lex_skip, hlex]; rfl) m cmd]
      obtain ⟨s₁, hlex₁, hstep⟩ := parseargs_arg hlex n hpush
      obtain ⟨s', hs', hrest'⟩ := ih hlex₁ hargs hn' hn'
      exact ⟨s', hstep.trans hs', hrest'⟩
    -- a redirection
    | redir mode file =>
      obtain ⟨s₁, hlex₁, hstep⟩ := parseredirs_redir hlex m cmd
      rw [hstep]
      exact ih hlex₁ hargs hm' (Nat.lt_succ_of_lt hn')

/-- The loop of `parseline` takes every `&` that is next. -/
theorem parsebacks_complete (cmd : Cmd) {k : ℕ} (hlex : lex s = .replicate k (.sym (ascii '&')) ++ rest)
    (hrest : starts [ascii '&'] rest = false) (hn : k < n) :
    ∃ s', parsebacks n cmd s = .ok (Cmd.back^[k] cmd, s') ∧ lex s' = rest := by
  induction k generalizing n cmd s with
  | zero =>
    obtain ⟨n, rfl⟩ := Nat.exists_eq_add_one_of_ne_zero (Nat.ne_of_gt hn)
    have hlex : lex s = rest := hlex
    refine ⟨skip s, ?_, (lex_skip s).trans hlex⟩
    rw [parsebacks, peek_eq (by decide), hlex, hrest]
    rfl
  | succ k ih =>
    obtain ⟨n, rfl⟩ := Nat.exists_eq_add_one_of_ne_zero (Nat.ne_of_gt (Nat.zero_lt_of_lt hn))
    have hlex : lex s = .sym (ascii '&') :: (.replicate k (.sym (ascii '&')) ++ rest) := hlex
    obtain ⟨-, -, hts⟩ := gettoken_of_sym hlex
    rw [parsebacks, peek_eq (by decide), if_pos (by rw [hlex]; rfl), Function.iterate_succ_apply]
    exact ih _ hts (Nat.lt_of_succ_lt_succ hn)

/-- How deep a parser calls the others before a token is taken. -/
def Nonterminal.depth : Nonterminal → ℕ
  | line => 4
  | pipe => 3
  | exec => 2

/-- `gettoken` goes over the symbol that is next. -/
theorem lex_gettoken {c : Chr} (hlex : lex s = .sym c :: ts) : lex (gettoken (skip s)).ps = ts :=
  (gettoken_of_sym hlex).2.2

/-- Each item takes at least one token. -/
theorem length_le_tokens (items : List Item) :
    items.length ≤ (items.flatMap Item.tokens).length := by
  induction items with
  | nil => exact le_rfl
  | cons i items ih =>
    rw [List.flatMap_cons, List.length_append, List.length_cons]
    cases i with
    | arg w => simp only [Item.tokens, List.length_singleton]; omega
    | redir mode file => simp only [Item.tokens, List.length_cons, List.length_nil]; omega

/-- A simple command does not begin with a parenthesis. -/
theorem starts_simple (items : List Item) (hrest : Ends Nonterminal.exec.follow rest) :
    starts [ascii '('] (items.flatMap Item.tokens ++ rest) = false := by
  cases items with
  | nil => exact hrest.starts_eq_false (by decide)
  | cons i items =>
    cases i with
    | arg w => rfl
    | redir mode file => cases mode <;> rfl

/-- The commands of the grammar are found, if only symbols are behind them that may be. By induction
on the derivation; each parser has as much left as its part has tokens. -/
theorem parse_complete {N : Nonterminal} (d : Derives N ts t) (hlex : lex s = ts ++ rest)
    (hrest : Ends N.follow rest) (hn : 4 * (lex s).length + N.depth ≤ n) :
    ∃ s', parse N n s = .ok (t, s') ∧ lex s' = rest := by
  induction d generalizing s rest n with
  | simple items hargs =>
    simp only [Nonterminal.depth] at hn
    obtain ⟨n, rfl⟩ := Nat.exists_eq_add_one_of_ne_zero (show n ≠ 0 by omega)
    have hlen : items.length ≤ (lex s).length := by
      rw [hlex, List.length_append]
      exact Nat.le_add_right_of_le (length_le_tokens items)
    have hparen : ¬peek s [ascii '('] := by
      rw [peek_eq (by decide), hlex, starts_simple items hrest]
      exact Bool.false_ne_true
    rw [parse, parseexec, if_neg hparen]
    exact simple_complete ((lex_skip s).trans hlex) hrest hargs (by omega) (by omega)
  | @block ts cmd d items hredirs ih =>
    simp only [Nonterminal.depth] at hn ih
    obtain ⟨n, rfl⟩ := Nat.exists_eq_add_of_le (show 2 ≤ n by omega)
    have hlex₁ : lex s = .sym (ascii '(') ::
        (ts ++ .sym (ascii ')') :: (items.flatMap Item.tokens ++ rest)) := by simp [hlex]
    have hpeek : peek s [ascii '('] := by rw [peek_eq (by decide), hlex₁]; rfl
    have hlen := congrArg List.length hlex₁
    have hitems := length_le_tokens items
    simp only [List.length_cons, List.length_append] at hlen
    -- The line inside the parentheses ends at the parenthesis.
    have hline := lex_gettoken hlex₁
    obtain ⟨s₁, hs₁, hlex₂⟩ := ih hline ⟨_, by decide, rfl⟩ (n := n) (by
      rw [hline, List.length_append, List.length_cons, List.length_append]
      omega)
    obtain ⟨s', hs', hlex₃⟩ := parseredirs_complete cmd (n := n) hredirs
      (lex_gettoken hlex₂) (hrest.starts_eq_false (by decide)) (by omega)
    refine ⟨s', ?_, hlex₃⟩
    rw [parse, Nat.add_comm, parseexec, if_pos hpeek, parseblock,
      if_pos (by rwa [peek, skip_skip]), skip_skip]
    simp only [parse] at hs₁
    rw [hs₁]
    have hrpar : peek s₁ [ascii ')'] := by rw [peek_eq (by decide), hlex₂]; rfl
    exact (if_pos hrpar).trans hs'
  | @single ts cmd d ih =>
    simp only [Nonterminal.depth] at hn ih
    obtain ⟨n, rfl⟩ := Nat.exists_eq_add_one_of_ne_zero (show n ≠ 0 by omega)
    obtain ⟨s₁, hs₁, hlex₁⟩ := ih hlex (hrest.mono (by decide)) (n := n) (by omega)
    refine ⟨skip s₁, ?_, (lex_skip s₁).trans hlex₁⟩
    simp only [parse] at hs₁ ⊢
    rw [parsepipe, hs₁]
    have hbar : ¬peek s₁ [ascii '|'] := by
      rw [peek_eq (by decide), hlex₁, hrest.starts_eq_false (by decide)]
      exact Bool.false_ne_true
    exact if_neg hbar
  | @pipe ts ts' left right l r ihl ihr =>
    simp only [Nonterminal.depth] at hn ihl ihr
    obtain ⟨n, rfl⟩ := Nat.exists_eq_add_one_of_ne_zero (show n ≠ 0 by omega)
    have hlex₁ : lex s = ts ++ .sym (ascii '|') :: (ts' ++ rest) := by simp [hlex]
    have hlen := congrArg List.length hlex₁
    simp only [List.length_cons, List.length_append] at hlen
    obtain ⟨s₁, hs₁, hlex₂⟩ := ihl hlex₁ ⟨_, by decide, rfl⟩ (n := n) (by omega)
    have hpipe := lex_gettoken hlex₂
    obtain ⟨s', hs', hlex₃⟩ := ihr hpipe hrest (n := n) (by
      rw [hpipe, List.length_append]
      omega)
    refine ⟨s', ?_, hlex₃⟩
    simp only [parse] at hs₁ hs' ⊢
    rw [parsepipe, hs₁]
    have hbar : peek s₁ [ascii '|'] := by rw [peek_eq (by decide), hlex₂]; rfl
    exact (if_pos hbar).trans (by rw [hs']; rfl)
  | @backs ts cmd d k ih =>
    simp only [Nonterminal.depth] at hn ih
    obtain ⟨n, rfl⟩ := Nat.exists_eq_add_one_of_ne_zero (show n ≠ 0 by omega)
    have hlex₁ : lex s = ts ++ (.replicate k (.sym (ascii '&')) ++ rest) := by simp [hlex]
    have hlen := congrArg List.length hlex₁
    simp only [List.length_append, List.length_replicate] at hlen
    have hends : Ends Nonterminal.pipe.follow (.replicate k (.sym (ascii '&')) ++ rest) := by
      obtain _ | k := k
      · exact hrest.mono (by decide)
      · exact ⟨_, by decide, rfl⟩
    obtain ⟨s₁, hs₁, hlex₂⟩ := ih hlex₁ hends (n := n) (by omega)
    obtain ⟨s₂, hs₂, hlex₃⟩ := parsebacks_complete cmd (n := n) hlex₂
      (hrest.starts_eq_false (by decide)) (by omega)
    refine ⟨skip s₂, ?_, (lex_skip s₂).trans hlex₃⟩
    simp only [parse] at hs₁ ⊢
    rw [parseline, hs₁]
    have hsemi : ¬peek s₂ [ascii ';'] := by
      rw [peek_eq (by decide), hlex₃, hrest.starts_eq_false (by decide)]
      exact Bool.false_ne_true
    change (parsebacks n cmd s₁ >>= _) = _
    rw [hs₂]
    exact if_neg hsemi
  | @list ts ts' left right l k r ihl ihr =>
    simp only [Nonterminal.depth] at hn ihl ihr
    obtain ⟨n, rfl⟩ := Nat.exists_eq_add_one_of_ne_zero (show n ≠ 0 by omega)
    have hlex₁ : lex s =
        ts ++ (.replicate k (.sym (ascii '&')) ++ .sym (ascii ';') :: (ts' ++ rest)) := by
      simp [hlex]
    have hlen := congrArg List.length hlex₁
    simp only [List.length_append, List.length_replicate, List.length_cons] at hlen
    have hends : Ends Nonterminal.pipe.follow
        (.replicate k (.sym (ascii '&')) ++ .sym (ascii ';') :: (ts' ++ rest)) := by
      obtain _ | k := k
      · exact ⟨_, by decide, rfl⟩
      · exact ⟨_, by decide, rfl⟩
    obtain ⟨s₁, hs₁, hlex₂⟩ := ihl hlex₁ hends (n := n) (by omega)
    obtain ⟨s₂, hs₂, hlex₃⟩ := parsebacks_complete left (n := n) hlex₂ rfl (by omega)
    have hline := lex_gettoken hlex₃
    obtain ⟨s', hs', hlex₄⟩ := ihr hline hrest (n := n) (by
      rw [hline, List.length_append]
      omega)
    refine ⟨s', ?_, hlex₄⟩
    simp only [parse] at hs₁ hs' ⊢
    rw [parseline, hs₁]
    have hsemi : peek s₂ [ascii ';'] := by rw [peek_eq (by decide), hlex₃]; rfl
    change (parsebacks n left s₁ >>= _) = _
    rw [hs₂]
    exact (if_pos hsemi).trans (by rw [hs']; rfl)

/-! ## Every line is parsed -/

/-- The redirections are as many as there are tokens for. -/
theorem parseredirs_fuel (h : (lex s).length < n) : parseredirs n cmd s ≠ .error .fuel := by
  induction n generalizing cmd s with
  | zero => omega
  | succ n ih =>
    rw [parseredirs]
    dsimp only
    split_ifs with hpeek hword
    · simp
    · obtain ⟨c, hlex, -, -⟩ := lex_of_peek (by decide) hpeek
      have hfile := lex_word (not_not.mp hword)
      apply ih
      rw [hlex, hfile, List.length_cons, List.length_cons] at h
      omega
    · simp

/-- A parser that has fuel, and goes on with one that has. -/
theorem bind_ne_fuel {α β : Type} {x : Except Stop α} {f : α → Except Stop β}
    (hx : x ≠ .error .fuel) (hf : ∀ a, x = .ok a → f a ≠ .error .fuel) :
    (x >>= f) ≠ .error .fuel := by
  cases x with
  | error e => exact fun he => hx (congrArg Except.error (Except.error.inj he))
  | ok a => exact hf a rfl

theorem parseargs_fuel (h : (lex s).length < n) : parseargs n cmd s ≠ .error .fuel := by
  induction n generalizing cmd s with
  | zero => omega
  | succ n ih =>
    rw [parseargs]
    dsimp only
    split_ifs with hpeek hend hword hmany
    · simp
    · simp
    · simp
    · simp
    · rw [gettoken_skip] at *
      have hlen := congrArg List.length (lex_word (not_not.mp hword))
      rw [List.length_cons] at hlen
      apply bind_ne_fuel (parseredirs_fuel (by omega))
      rintro ⟨ret, s₁⟩ hredirs
      obtain ⟨items, -, -, hlex₁⟩ := parseredirs_sound hredirs
      have hlen₁ := congrArg List.length hlex₁
      rw [List.length_append] at hlen₁
      apply ih
      dsimp only
      omega

theorem parsebacks_fuel (h : (lex s).length < n) : parsebacks n cmd s ≠ .error .fuel := by
  induction n generalizing cmd s with
  | zero => omega
  | succ n ih =>
    rw [parsebacks]
    split_ifs with hpeek
    · have hlen := congrArg List.length (lex_of_peek_single (by decide) hpeek)
      rw [List.length_cons] at hlen
      exact ih (by omega)
    · simp

/-- The calls in one another are as many as there are tokens for. -/
theorem parse_fuel (N : Nonterminal) (h : 4 * (lex s).length + N.depth ≤ n) :
    parse N n s ≠ .error .fuel := by
  induction n using Nat.strong_induction_on generalizing N s with
  | _ n ih =>
  -- What is left behind a part has no more tokens than there were.
  have hrest : ∀ {N m s t s'}, parse N m s = .ok (t, s') → (lex s').length ≤ (lex s).length := by
    intro N m s t s' hs
    obtain ⟨ts, -, hlex⟩ := parse_sound hs
    rw [hlex, List.length_append]
    omega
  cases N with
  | line =>
    simp only [Nonterminal.depth] at h
    obtain ⟨n, rfl⟩ := Nat.exists_eq_add_one_of_ne_zero (show n ≠ 0 by omega)
    rw [parse, parseline]
    apply bind_ne_fuel (ih n n.lt_succ_self .pipe (by simp only [Nonterminal.depth]; omega))
    rintro ⟨left, s₁⟩ hpipe
    have hlen₁ := hrest (N := .pipe) hpipe
    apply bind_ne_fuel (parsebacks_fuel (by omega))
    rintro ⟨left', s₂⟩ hbacks
    obtain ⟨k, -, hlex₂⟩ := parsebacks_sound hbacks
    have hlen₂ := congrArg List.length hlex₂
    rw [List.length_append] at hlen₂
    dsimp only at hlen₂ ⊢
    split_ifs with hpeek
    · have hlen₃ := congrArg List.length (lex_of_peek_single (by decide) hpeek)
      rw [List.length_cons] at hlen₃
      apply bind_ne_fuel (ih n n.lt_succ_self .line (by simp only [Nonterminal.depth]; omega))
      simp [pure, Except.pure]
    · simp [pure, Except.pure]
  | pipe =>
    simp only [Nonterminal.depth] at h
    obtain ⟨n, rfl⟩ := Nat.exists_eq_add_one_of_ne_zero (show n ≠ 0 by omega)
    rw [parse, parsepipe]
    apply bind_ne_fuel (ih n n.lt_succ_self .exec (by simp only [Nonterminal.depth]; omega))
    rintro ⟨left, s₁⟩ hexec
    have hlen₁ := hrest (N := .exec) hexec
    dsimp only
    split_ifs with hpeek
    · have hlen₂ := congrArg List.length (lex_of_peek_single (by decide) hpeek)
      rw [List.length_cons] at hlen₂
      apply bind_ne_fuel (ih n n.lt_succ_self .pipe (by simp only [Nonterminal.depth]; omega))
      simp [pure, Except.pure]
    · simp [pure, Except.pure]
  | exec =>
    simp only [Nonterminal.depth] at h
    obtain ⟨n, rfl⟩ := Nat.exists_eq_add_of_le (show 2 ≤ n by omega)
    rw [parse, Nat.add_comm, parseexec]
    split_ifs with hpeek
    · have hlen := congrArg List.length (lex_of_peek_single (by decide) hpeek)
      rw [List.length_cons] at hlen
      rw [parseblock, if_pos (by rwa [peek, skip_skip]), skip_skip]
      apply bind_ne_fuel (ih n (by omega) .line (by simp only [Nonterminal.depth]; omega))
      rintro ⟨cmd, s₁⟩ hline
      have hlen₁ := hrest (N := .line) hline
      dsimp only
      split_ifs with hrpar
      · have hlen₂ := congrArg List.length (lex_of_peek_single (by decide) hrpar)
        rw [List.length_cons] at hlen₂
        exact parseredirs_fuel (by omega)
      · simp [throw, throwThe, MonadExceptOf.throw]
    · apply bind_ne_fuel (parseredirs_fuel (by rw [lex_skip]; omega))
      rintro ⟨ret, s₁⟩ hredirs
      obtain ⟨items, -, -, hlex₁⟩ := parseredirs_sound hredirs
      have hlen₁ := congrArg List.length hlex₁
      rw [lex_skip, List.length_append] at hlen₁
      exact parseargs_fuel (by omega)

/-- A token has a character at least. -/
theorem length_lex_le (s : List Chr) : (lex s).length ≤ s.length := by
  induction s using lex.induct with
  | case1 s h => simp [lex_nil h]
  | case2 s h ih =>
    rw [lex_cons h, List.length_cons]
    exact Nat.lt_of_le_of_lt ih (length_ps_lt h)

/-- `parsecmd` gives a tree for the commands of the grammar and for no other line, and it is the tree
of the grammar. It comes to an end on every line. -/
theorem parsecmd_iff (s : List Chr) :
    (∀ t, parsecmd s = .ok t ↔ Derives .line (lex (lineOf s)) t) ∧ parsecmd s ≠ .error .fuel := by
  have hfuel : 4 * (lex (lineOf s)).length + Nonterminal.line.depth ≤ 4 * (lineOf s).length + 4 := by
    have := length_lex_le (lineOf s)
    simp only [Nonterminal.depth]
    omega
  refine ⟨fun t => ⟨fun h => ?_, fun d => ?_⟩, ?_⟩
  · obtain ⟨⟨cmd, s'⟩, hline, h⟩ := exists_of_bind h
    dsimp only at h
    split_ifs at h with hend
    obtain rfl : cmd = t := Except.ok.inj h
    rw [← parse] at hline
    obtain ⟨ts, d, hlex⟩ := parse_sound hline
    rw [lex_nil (not_not.mp hend), List.append_nil] at hlex
    exact hlex ▸ d
  · obtain ⟨s', hs', hend⟩ := parse_complete d (List.append_nil _).symm trivial hfuel
    simp only [parse] at hs'
    change (parseline _ _ >>= _) = _
    rw [hs']
    exact if_neg (not_not.mpr (lex_eq_nil.mp hend))
  · apply bind_ne_fuel (parse_fuel .line hfuel)
    rintro ⟨cmd, s'⟩ -
    dsimp only
    split_ifs
    · simp [throw, throwThe, MonadExceptOf.throw]
    · simp [pure, Except.pure]

end UnixV6.Sh
