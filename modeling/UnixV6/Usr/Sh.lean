import UnixV6.Usr.Strings

/-!
# The command language of the shell (`usr/sh.c`)

The parser by recursive descent. It reads the line through `gettoken` and `peek`, which skip blanks
in front of a token.

A pointer into the line is what is there from it on, up to the end `es` of the line: `*s` is the head
of the list, and `NUL` at the end. The nodes of the tree are values. The one node that is changed
when others point to it already is that of `parseexec`, which gets its arguments behind its
redirections; `Cmd.push` finds it inside them.
-/

namespace UnixV6.Sh

open Usr

/-! ## Commands -/

/-- The modes of a redirection. -/
inductive Mode
  | O_READ
  | O_WRITE
  | O_APPEND
  deriving DecidableEq, Repr

/-- A word of the line: where it begins and where it ends. -/
structure Word where
  q : List Chr
  eq : List Chr
  deriving DecidableEq, Repr

/-- `struct cmd`. -/
inductive Cmd
  | exec (argv : List Word)
  | redir (cmd : Cmd) (file : Word) (mode : Mode) (fd : ℕ)
  | pipe (left right : Cmd)
  | list (left right : Cmd)
  | back (cmd : Cmd)
  deriving DecidableEq, Repr

namespace Cmd

/-- `cmd->argv[argc] = q; cmd->eargv[argc] = eq`. -/
def push : Cmd → Word → Cmd
  | exec argv, w => exec (argv ++ [w])
  | redir cmd file mode fd, w => redir (cmd.push w) file mode fd
  | cmd, _ => cmd

/-- The arguments of the node that `push` changes, of which there are `argc`. -/
def argv : Cmd → List Word
  | exec argv => argv
  | redir cmd _ _ _ => cmd.argv
  | _ => []

end Cmd

/-! ## Tokens -/

def MAXARGS : ℕ := 10

/-- `whitespace`. -/
def whitespace : List Chr := [ascii ' ', ascii '\t', ascii '\r', ascii '\n', 0x0b]

/-- `symbols`. -/
def symbols : List Chr :=
  [ascii '<', ascii '|', ascii '>', ascii '&', ascii ';', ascii '(', ascii ')']

/-- `while(s < es && strchr(whitespace, *s)) s++`. -/
def skip (s : List Chr) : List Chr := s.dropWhile (· ∈ whitespace)

/-- `while(s < es && !strchr(whitespace, *s) && !strchr(symbols, *s)) s++`. -/
def wordEnd (s : List Chr) : List Chr := s.dropWhile fun c => c ∉ whitespace ∧ c ∉ symbols

/-- What `gettoken` gives back: its value, where the token begins and ends, and `*ps`. -/
structure Gettoken where
  ret : Chr
  q : List Chr
  eq : List Chr
  ps : List Chr
  deriving DecidableEq, Repr

/-- The word, if the token is one. -/
def Gettoken.word (tok : Gettoken) : Word := ⟨tok.q, tok.eq⟩

/-- The symbols that are a token by themselves. -/
def single : List Chr :=
  [ascii '|', ascii '(', ascii ')', ascii ';', ascii '&', ascii '<']

/-- `gettoken`. -/
def gettoken (ps : List Chr) : Gettoken :=
  match skip ps with
  | [] => ⟨0, [], [], []⟩
  | c :: s =>
    if c ∈ single then ⟨c, c :: s, s, skip s⟩
    else if c = ascii '>' then
      if s.head? = some (ascii '>') then ⟨ascii '+', c :: s, s.tail, skip s.tail⟩
      else ⟨c, c :: s, s, skip s⟩
    else ⟨ascii 'a', c :: s, wordEnd (c :: s), skip (wordEnd (c :: s))⟩

/-- What `peek` returns; `*ps` is `skip s` then. -/
def peek (s toks : List Chr) : Bool :=
  match skip s with
  | [] => false
  | c :: _ => c ∈ toks

/-! ## Commands from tokens -/

/-- Why there is no tree: the shell panics, after it printed what is left over if that is why. `fuel`
is of the model and has no counterpart. -/
inductive Stop
  | panic (s : String)
  | leftovers (s : List Chr)
  | fuel
  deriving DecidableEq, Repr

/-- What a parser gives: a tree, and `*ps`. -/
abbrev Parsed : Type := Except Stop (Cmd × List Chr)

/-- The `switch` of `parseredirs`. -/
def redircmd (tok : Chr) (cmd : Cmd) (file : Word) : Cmd :=
  if tok = ascii '<' then .redir cmd file .O_READ 0
  else if tok = ascii '>' then .redir cmd file .O_WRITE 1
  else if tok = ascii '+' then .redir cmd file .O_APPEND 1
  else cmd

/-- `parseredirs`. -/
def parseredirs : ℕ → Cmd → List Chr → Parsed
  | 0, _, _ => .error .fuel
  | n + 1, cmd, s =>
    if peek s [ascii '<', ascii '>'] then
      let tok := gettoken (skip s)
      let file := gettoken tok.ps
      if file.ret ≠ ascii 'a' then .error (.panic "missing file for redirection")
      else parseredirs n (redircmd tok.ret cmd file.word) file.ps
    else .ok (cmd, skip s)

/-- The loop of `parseexec`. -/
def parseargs : ℕ → Cmd → List Chr → Parsed
  | 0, _, _ => .error .fuel
  | n + 1, ret, s =>
    if peek s [ascii '|', ascii ')', ascii '&', ascii ';'] then .ok (ret, skip s)
    else
      let tok := gettoken (skip s)
      if tok.ret = 0 then .ok (ret, tok.ps)
      else if tok.ret ≠ ascii 'a' then .error (.panic "syntax")
      else
        let ret := ret.push tok.word
        if ret.argv.length ≥ MAXARGS then .error (.panic "too many args")
        else do
          let (ret, s) ← parseredirs n ret tok.ps
          parseargs n ret s

/-- The loop of `parseline`. -/
def parsebacks : ℕ → Cmd → List Chr → Parsed
  | 0, _, _ => .error .fuel
  | n + 1, cmd, s =>
    if peek s [ascii '&'] then parsebacks n (.back cmd) (gettoken (skip s)).ps
    else .ok (cmd, skip s)

mutual

/-- `parseline`. -/
def parseline : ℕ → List Chr → Parsed
  | 0, _ => .error .fuel
  | n + 1, s => do
    let (cmd, s) ← parsepipe n s
    let (cmd, s) ← parsebacks n cmd s
    if peek s [ascii ';'] then do
      let (right, s) ← parseline n (gettoken (skip s)).ps
      return (.list cmd right, s)
    else return (cmd, skip s)

/-- `parsepipe`. -/
def parsepipe : ℕ → List Chr → Parsed
  | 0, _ => .error .fuel
  | n + 1, s => do
    let (cmd, s) ← parseexec n s
    if peek s [ascii '|'] then do
      let (right, s) ← parsepipe n (gettoken (skip s)).ps
      return (.pipe cmd right, s)
    else return (cmd, skip s)

/-- `parseexec`. -/
def parseexec : ℕ → List Chr → Parsed
  | 0, _ => .error .fuel
  | n + 1, s =>
    if peek s [ascii '('] then parseblock n (skip s)
    else do
      let (ret, s) ← parseredirs n (.exec []) (skip s)
      parseargs n ret s

/-- `parseblock`. -/
def parseblock : ℕ → List Chr → Parsed
  | 0, _ => .error .fuel
  | n + 1, s =>
    if peek s [ascii '('] then do
      let (cmd, s) ← parseline n (gettoken (skip s)).ps
      if peek s [ascii ')'] then parseredirs n cmd (gettoken (skip s)).ps
      else throw (.panic "syntax - missing )")
    else throw (.panic "parseblock")

end

/-- The line that begins at `s`, up to its `NUL`. -/
def lineOf (s : List Chr) : List Chr := s.takeWhile (· ≠ 0)

/-- `parsecmd`, before it calls `nulterminate`. -/
def parsecmd (s : List Chr) : Except Stop Cmd := do
  let line := lineOf s
  let (cmd, s) ← parseline (4 * line.length + 4) line
  if skip s ≠ [] then throw (.leftovers (skip s)) else return cmd

/-- `nulterminate` for a line of `len` characters, of which `es` is the end: `*p = 0` is at
`es - p` from the end. -/
def nulterminate (len : ℕ) : Cmd → List Chr → List Chr
  | .exec argv, buf => argv.foldl (fun buf w => buf.set (len - w.eq.length) 0) buf
  | .redir cmd file _ _, buf => (nulterminate len cmd buf).set (len - file.eq.length) 0
  | .pipe left right, buf => nulterminate len right (nulterminate len left buf)
  | .list left right, buf => nulterminate len right (nulterminate len left buf)
  | .back cmd, buf => nulterminate len cmd buf

end UnixV6.Sh
