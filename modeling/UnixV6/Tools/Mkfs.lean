import UnixV6.Ken.IgetError
import UnixV6.Ken.FreeList

/-!
# Making a file system (`tools/mkfs.c`)

The program on its host: what it declares `int` has 16 bits, and what it leaves undeclared is an
`int` of the host, wide enough for everything that is computed here. The program stops where it
calls `exit`, and where it leaves the bounds of an array; a loop that reads the proto file, and the
recursion of `cfile`, stop without `fuel`. The state is kept when the program stops.

The input is the proto file, and behind its end what the variable `c` of `getchar` happens to hold.
The output is a row of blocks. `lseek` gets an offset in bytes as an `int`; for a negative one it is
not known where it goes.
-/

open Function

namespace UnixV6.Mkfs

abbrev Byte : Type := BitVec 8

/-- What the program finds around it. -/
structure Env where
  /-- The files that it can open. -/
  files : List Byte → Option (List Byte)
  /-- What `getchar` returns behind the end of the proto file, call after call. -/
  eof : ℕ → Byte
  /-- The block that `lseek` goes to from another one, for a negative block number. -/
  lseek : ℕ → ℤ → ℕ

/-- Why the program stops before its end. -/
inductive Stop
  /-- A call of `exit`. -/
  | exit
  /-- An index is out of the bounds of `string`, `s_free` or `buf`. -/
  | bounds
  /-- It has not come to an end yet. -/
  | fuel
  deriving DecidableEq

/-- The global variables and the files. -/
structure St where
  /-- What is left of the proto file. -/
  proto : List Byte
  /-- The number of calls of `getchar` behind its end. -/
  late : ℕ
  string : List Byte
  s_isize : BitVec 16
  s_fsize : BitVec 16
  s_nfree : ℤ
  s_free : ℕ → ℤ
  swap : BitVec 16
  buf : Block
  /-- The static variable of `cfile`. -/
  ino : ℕ
  /-- The output: its blocks, their number, and the positions of its two descriptors. -/
  image : ℕ → Block
  size : ℕ
  fsi : ℕ
  fso : ℕ
  /-- The inodes that have been written, with the block numbers that `wtfs` got. -/
  placed : List (ℕ × ℤ)
  /-- The regular files that have been copied, by their inodes. -/
  copied : List (ℕ × List Byte)

abbrev M (α : Type) : Type := EStateM Stop St α

/-- The value that a variable declared `int` takes. -/
def short (x : ℤ) : ℤ := x.bmod 65536

/-! ## The proto file -/

def getch (E : Env) : M Byte := fun s =>
  match s.proto with
  | c :: cs => .ok c { s with proto := cs }
  | [] => .ok (E.eof s.late) { s with late := s.late + 1 }

/-- A blank. -/
def blank (c : Byte) : Prop := c = 32 ∨ c = 9 ∨ c = 10

instance (c : Byte) : Decidable (blank c) := inferInstanceAs (Decidable (c = 32 ∨ c = 9 ∨ c = 10))

/-- `while(getch() != '\n');` -/
def comment (E : Env) : ℕ → M Unit
  | 0 => throw .fuel
  | fuel + 1 => do
    let c ← getch E
    if c = 10 then pure () else comment E fuel

/-- `getstr` up to the first character of the token. -/
def skip (E : Env) : ℕ → M Byte
  | 0 => throw .fuel
  | fuel + 1 => do
    let c ← getch E
    if blank c then skip E fuel
    else if c = 0 then throw .exit
    else if c = 58 then do
      comment E fuel
      skip E fuel
    else pure c

/-- The loop of `getstr` that stores the token; `t` has been stored, and `c` comes next. The array
has room for 49 characters and the end mark. -/
def collect (E : Env) : ℕ → List Byte → Byte → M (List Byte)
  | 0, _, _ => throw .fuel
  | fuel + 1, t, c =>
    if 49 ≤ t.length then throw .bounds
    else do
      let c' ← getch E
      if blank c' ∨ c' = 0 then pure (t ++ [c]) else collect E fuel (t ++ [c]) c'

def getstr (E : Env) (fuel : ℕ) : M Unit := do
  let c ← skip E fuel
  let t ← collect E fuel [] c
  modify fun s => { s with string := t }

/-- `string[i]` -/
def char (i : ℕ) : M Byte := fun s => .ok (s.string.getD i 0) s

/-- The loop of `getnum`. -/
def number : BitVec 16 → List Byte → M (BitVec 16)
  | n, [] => pure n
  | n, c :: cs =>
    if c < 48 ∨ 57 < c then throw .exit
    else number (n * 10 + c.setWidth 16 - 48) cs

def getnum (E : Env) (fuel : ℕ) : M (BitVec 16) := do
  getstr E fuel
  let s ← get
  number 0 s.string

/-- The mode bits of the character `c`: it is one of `ms`, or `-`. -/
def gmode (c : Byte) (ms : List (Byte × BitVec 16)) : M (BitVec 16) :=
  match ms.lookup c with
  | some m => pure m
  | none => if c = 45 then pure 0 else throw .exit

/-! ## The output -/

/-- The block that `lseek` goes to. -/
def Env.seek (E : Env) (pos : ℕ) (bno : ℤ) : ℕ := if 0 ≤ bno then bno.toNat else E.lseek pos bno

def rdfs (E : Env) (bno : ℤ) : M Unit := fun s =>
  let pos := E.seek s.fsi bno
  if pos < s.size then .ok () { s with buf := s.image pos, fsi := pos + 1 } else .error .exit s

def wtfs (E : Env) (bno : ℤ) (bf : Block) : M Unit := fun s =>
  let pos := E.seek s.fso bno
  .ok () { s with
    image := update s.image pos bf
    size := max s.size (pos + 1)
    fso := pos + 1 }

/-- `filsys.s_nfree = buf[0]; filsys.s_free[i] = buf[i+1];` -/
def St.reload (s : St) : St :=
  { s with
    s_nfree := (s.buf.word 0).toInt
    s_free := fun i => if i < 100 then (s.buf.word (i + 1)).toInt else s.s_free i }

/-- `buf[0] = filsys.s_nfree; buf[i+1] = filsys.s_free[i];` -/
def St.save (s : St) : St :=
  { s with buf := s.buf.putWords 0 101 fun
      | 0 => BitVec.ofInt 16 s.s_nfree
      | i + 1 => BitVec.ofInt 16 (s.s_free i) }

/-- `filsys.s_nfree--; bno = filsys.s_free[filsys.s_nfree]; filsys.s_free[filsys.s_nfree] = 0;` -/
def pop : M ℤ := fun s =>
  let n := short (s.s_nfree - 1)
  let s := { s with s_nfree := n }
  if 0 ≤ n ∧ n < 100 then
    .ok (s.s_free n.toNat) { s with s_free := update s.s_free n.toNat 0 }
  else .error .bounds s

def alloc (E : Env) : M ℤ := do
  let bno ← pop
  if bno = 0 then throw .exit
  else do
    let s ← get
    if s.s_nfree ≤ 0 then do
      rdfs E bno
      modify St.reload
      pure bno
    else pure bno

/-- `filsys.s_free[filsys.s_nfree] = bno; filsys.s_nfree++;` -/
def push (bno : ℤ) : M Unit := fun s =>
  if 0 ≤ s.s_nfree ∧ s.s_nfree < 100 then
    .ok () { s with
      s_free := update s.s_free s.s_nfree.toNat (short bno)
      s_nfree := s.s_nfree + 1 }
  else .error .bounds s

def bfree (E : Env) (bno : ℤ) : M Unit := do
  let s ← get
  if 100 ≤ s.s_nfree then do
    modify St.save
    wtfs E bno (← get).buf
    modify fun s => { s with s_nfree := 0 }
    push bno
  else push bno

/-! ## The free list -/

/-- `while(flg[i]) i = (i+1)%f_n;` -/
def unflagged (f_n : ℕ) (flg : List Bool) : ℕ → ℕ → ℕ
  | 0, i => i
  | turns + 1, i => if flg.getD i false then unflagged f_n flg turns ((i + 1) % f_n) else i

/-- The loop that fills in `adr`: `j` more turns, the next one from `i`. -/
def interleave (f_n f_m : ℕ) : ℕ → List Bool → ℕ → List ℕ
  | 0, _, _ => []
  | j + 1, flg, i =>
    let i := unflagged f_n flg f_n i
    i :: interleave f_n f_m j (flg.set i true) ((i + f_m) % f_n)

/-- `for(i=high; lrem(0,i+1,f_n); i--)`: the blocks, and the last `i`. -/
def topBlocks (f_n low : ℕ) : ℕ → List ℕ × ℕ
  | 0 => ([], 0)
  | i + 1 =>
    if (i + 2) % f_n = 0 ∨ i + 1 < low then ([], i + 1)
    else ((i + 1) :: (topBlocks f_n low i).1, (topBlocks f_n low i).2)

/-- `for(; i >= low+f_n; i -= f_n) for(j=0; j<f_n; j++)`: the blocks, and the last `i`. -/
def groupBlocks (f_n low : ℕ) (adr : List ℕ) : ℕ → ℕ → List ℕ × ℕ
  | 0, i => ([], i)
  | turns + 1, i =>
    if low + f_n ≤ i then
      let rest := groupBlocks f_n low adr turns (i - f_n)
      (adr.map (i - ·) ++ rest.1, rest.2)
    else ([], i)

/-- `for(;i >= low; i--)` -/
def restBlocks (low i : ℕ) : List ℕ := (List.range' low (i + 1 - low)).reverse

/-- The blocks in the order in which `bflist` frees them. -/
def freeOrder (f_n f_m : ℕ) (s_fsize s_isize : BitVec 16) : List ℕ :=
  let adr := interleave f_n f_m f_n (List.replicate f_n false) 0
  let high := (s_fsize - 1).toNat
  let low := (s_isize + 2).toNat
  let top := topBlocks f_n low high
  let groups := groupBlocks f_n low adr top.2 top.2
  top.1 ++ groups.1 ++ restBlocks low groups.2

/-- `for` over a list. -/
def each {α : Type} (f : α → M Unit) : List α → M Unit
  | [] => pure ()
  | x :: xs => do
    f x
    each f xs

def bflist (E : Env) (f_n f_m : ℕ) : M Unit := do
  bfree E 0
  let s ← get
  each (fun i : ℕ => bfree E i) (freeOrder f_n f_m s.s_fsize s.s_isize)

/-! ## Files -/

/-- `struct inode`. The times are zero. -/
structure Inode extends Dinode where
  i_number : BitVec 16 := 0

/-- `db`, `dbc`, `ib` and `ibc` of `cfile`. -/
structure Blocks where
  dbc : ℕ := 0
  db : Block := Block.zero
  ibc : ℕ := 0
  ib : Block := Block.zero

def newblk (E : Env) (b : Blocks) : M Blocks := do
  let bno ← alloc E
  wtfs E bno b.db
  if 256 ≤ b.ibc + 1 then throw .exit
  else pure { ibc := b.ibc + 1, ib := b.ib.setWord b.ibc (BitVec.ofInt 16 bno) }

/-- Bytes are stored in a block from the place `n` on. -/
def store (b : Block) (n : ℕ) (cs : List Byte) : Block := fun j =>
  if n ≤ j ∧ j < n + cs.length then cs.getD (j - n) 0 else b j

/-- A directory entry. The name is cut to 14 characters, or filled up with zeros. -/
def entry (E : Env) (ino : BitVec 16) (str : List Byte) (b : Blocks) : M Blocks :=
  let name := (str ++ List.replicate 14 0).take 14
  let b := { b with
    db := store (b.db.setWord b.dbc ino) (2 * (b.dbc + 1)) name
    dbc := b.dbc + 8 }
  if 256 ≤ b.dbc then newblk E b else pure b

/-- The loop that copies a file, for its blocks. -/
def copyBlocks (E : Env) : List (List Byte) → Inode → Blocks → M (Inode × Blocks)
  | [], ip, b => pure (ip, b)
  | cs :: rest, ip, b => do
    let b ← newblk E { b with db := store b.db 0 cs }
    copyBlocks E rest { ip with i_size1 := ip.i_size1 + BitVec.ofNat 16 cs.length } b

/-- The digit `c` of a mode. -/
def digit (c : Byte) : M (BitVec 16) :=
  if c < 48 ∨ 55 < c then throw .exit else pure (c.setWidth 16 - 48)

/-- The mode that `string` describes. -/
def mode : M (BitVec 16) := do
  let fmt ← gmode (← char 0) [(98, 0o060000), (99, 0o020000), (100, 0o040000)]
  let suid ← gmode (← char 1) [(117, 0o4000)]
  let sgid ← gmode (← char 2) [(103, 0o2000)]
  let d3 ← digit (← char 3)
  let d4 ← digit (← char 4)
  let d5 ← digit (← char 5)
  pure (0o100000 ||| fmt ||| suid ||| sgid ||| d3 <<< 6 ||| d4 <<< 3 ||| d5)

/-- The next number for an inode. The check is made with the number rounded down. -/
def nextIno : M ℕ := do
  modify fun s => { s with ino := s.ino + 1 }
  let s ← get
  if s.s_isize.toNat < s.ino / 16 then throw .exit else pure s.ino

/-- `cfile` up to the switch: mode, owner and number. -/
def header (E : Env) (fuel : ℕ) : M (ℕ × Inode) := do
  getstr E fuel
  let i_mode ← mode
  let i_uid ← getnum E fuel
  let i_gid ← getnum E fuel
  let n ← nextIno
  pure (n,
    { i_mode, i_nlink := 1, i_uid := i_uid.setWidth 8, i_gid := i_gid.setWidth 8
      i_number := BitVec.ofNat 16 n })

/-- The end of `cfile`: the last block is written, the addresses go into the inode. -/
def addresses (E : Env) (ip : Inode) (b : Blocks) : M Inode := do
  let b ← (if b.dbc ≠ 0 then newblk E b else pure b : M Blocks)
  if 8 < b.ibc then do
    let dbc ← alloc E
    wtfs E dbc b.ib
    pure { ip with
      i_mode := ip.i_mode ||| ILARG
      i_addr := update ip.i_addr 0 (BitVec.ofInt 16 dbc) }
  else pure { ip with i_addr := fun k => if k.val < b.ibc then b.ib.word k else ip.i_addr k }

/-- The end of `cfile`: the inode numbered `n` is written. -/
def place (E : Env) (n : ℕ) (ip : Inode) : M Unit := do
  let i := (ip.i_number + 31).toInt
  let dbc := i.tdiv 16
  if i.tmod 16 < 0 then throw .bounds
  else do
    rdfs E dbc
    modify fun s => { s with
      buf := s.buf.putWords (16 * (i.tmod 16).toNat) 16 ip.word
      placed := (n, dbc) :: s.placed }
    wtfs E dbc (← get).buf

/-- The loop over the entries of a directory. `rec` makes the file of an entry and gives the inode
of the directory back, in which it may have counted a link. -/
def dirents (E : Env) (rec : Inode → M Inode) : ℕ → Inode → Blocks → M (Inode × Blocks)
  | 0, _, _ => throw .fuel
  | fuel + 1, ip, b => do
    getstr E (fuel + 1)
    let s ← get
    if s.string = [36] then pure (ip, b)
    else do
      let b ← entry E (BitVec.ofNat 16 (s.ino + 1)) s.string b
      let ip ← rec { ip with i_size1 := ip.i_size1 + 16 }
      dirents E rec fuel ip b

/-- `cfile` for a regular file, the inode numbered `n`. -/
def regular (E : Env) (fuel n : ℕ) (ip : Inode) : M Unit := do
  getstr E fuel
  let s ← get
  match E.files s.string with
  | none => do
    let ip ← addresses E ip {}
    place E n ip
  | some cs => do
    let (ip, b) ← copyBlocks E (cs.toChunks 512) ip {}
    let ip ← addresses E ip b
    place E n ip
    modify fun s => { s with copied := (n, cs) :: s.copied }

/-- `cfile` for a special file. -/
def special (E : Env) (fuel n : ℕ) (ip : Inode) : M Unit := do
  let maj ← getnum E fuel
  let min ← getnum E fuel
  let ip ← addresses E { ip with i_addr := update ip.i_addr 0 (maj <<< 8 ||| min) } {}
  place E n ip

/-- `cfile` for a directory with the number `up` of its parent. -/
def directory (E : Env) (fuel n : ℕ) (rec : Inode → M Inode) (up : BitVec 16) (ip : Inode) :
    M Unit := do
  let b ← entry E up [46, 46] {}
  let b ← entry E ip.i_number [46] b
  let (ip, b) ← dirents E rec fuel { ip with i_nlink := ip.i_nlink + 1, i_size1 := 32 } b
  let ip ← addresses E ip b
  place E n ip

/-- `cfile(par)`, with `rec` for its calls of itself. It returns `*par`. -/
def cfileWith (E : Env) (fuel : ℕ) (rec : Option Inode → M (Option Inode)) (par : Option Inode) :
    M (Option Inode) := do
  let (n, ip) ← header E (fuel + 1)
  let ip := if par.isNone then { ip with i_nlink := 0 } else ip
  if ip.i_mode &&& 0o060000 = 0 then do
    regular E (fuel + 1) n ip
    pure par
  else if ip.i_mode &&& 0o060000 = 0o040000 then do
    -- one more link to the parent; the root is its own parent
    let ip := if par.isNone then { ip with i_nlink := ip.i_nlink + 1 } else ip
    directory E fuel n (fun ip => (·.getD ip) <$> rec (some ip)) (par.getD ip).i_number ip
    pure (par.map fun par => { par with i_nlink := par.i_nlink + 1 })
  else do
    special E (fuel + 1) n ip
    pure par

/-- `cfile`. -/
def cfile (E : Env) : ℕ → Option Inode → M (Option Inode)
  | 0, _ => throw .fuel
  | fuel + 1, par => cfileWith E fuel (cfile E fuel) par

/-! ## The program -/

/-- `f_n` and `f_m`, from the name of the output. -/
def rotation : List Byte → ℕ × ℕ → ℕ × ℕ
  | c :: f :: cs, r =>
    if c = 114 ∧ f = 107 then rotation (f :: cs) (24, 3)
    else if c = 114 ∧ f = 112 then rotation (f :: cs) (10, 4)
    else rotation (f :: cs) r
  | _, r => r

/-- The boot block. -/
def boot (E : Env) (fuel : ℕ) : M Unit := do
  getstr E fuel
  let s ← get
  match E.files s.string with
  | none => pure ()
  | some cs => do
    modify fun s => { s with buf := store s.buf 0 (cs.take 512) }
    wtfs E 0 (← get).buf

/-- The sizes, and whether their ratio is good. -/
def sizes (E : Env) (fuel : ℕ) : M Unit := do
  let s_fsize ← getnum E fuel
  let s_isize ← getnum E fuel
  let swap ← getnum E fuel
  modify fun s => { s with s_fsize, s_isize, swap }
  if s_fsize < s_isize ∨ (s_fsize.toNat : ℤ) - s_isize.toNat - 2 < s_isize.toNat then throw .exit
  else pure ()

/-- The super block. -/
def St.superblock (s : St) : Block :=
  (Block.zero.putWords 0 3 fun
    | 0 => s.s_isize
    | 1 => s.s_fsize
    | _ => BitVec.ofInt 16 s.s_nfree).putWords 3 100 fun i => BitVec.ofInt 16 (s.s_free i)

/-- `main`, for a proto file that could be opened. The ratio of the sizes keeps `s_isize` below
32768, so that the `int` that counts the blocks of the inodes comes to its end. -/
def main (E : Env) (fsys : List Byte) (fuel : ℕ) : M Unit := do
  boot E fuel
  sizes E fuel
  bflist E (rotation fsys (1, 1)).1 (rotation fsys (1, 1)).2
  modify fun s => { s with buf := Block.zero }
  let s ← get
  each (fun n : ℕ => wtfs E (n + 2) Block.zero) (List.range s.s_isize.toNat)
  wtfs E (short (s.s_fsize.toNat + s.swap.toInt - 1)) Block.zero
  let _ ← cfile E fuel none
  modify fun s => { s with buf := Block.zero }
  wtfs E 1 (← get).superblock

/-- The state in which the program starts. -/
def start (proto : List Byte) : St where
  proto := proto
  late := 0
  string := []
  s_isize := 0
  s_fsize := 0
  s_nfree := 0
  s_free _ := 0
  swap := 0
  buf := Block.zero
  ino := 0
  image _ := Block.zero
  size := 0
  fsi := 0
  fso := 0
  placed := []
  copied := []

/-- A run of the program, for the name of the output and the proto file. -/
def run (E : Env) (fsys proto : List Byte) (fuel : ℕ) : EStateM.Result Stop St Unit :=
  main E fsys fuel (start proto)

end UnixV6.Mkfs
