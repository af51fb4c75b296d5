import UnixV6.Ken.FileRead
import UnixV6.Ken.PipeFifo

/-!
# The file of a pipe

The model of pipes has the contents of the file as an array. On a device the file has blocks that
`bmap` finds or makes, and a turn of the loops of `readi` and `writei` is the one of any file.
-/

open Function

namespace UnixV6

namespace PipeSys

variable {π : Type} [DecidableEq π] {s : PipeSys π (BitVec 8)} {f : FileDev} {p : π} {u : IoArgs}
  {mem : Mem}

/-- The bytes of the pipe are those of the file. -/
structure OnFile (s : PipeSys π (BitVec 8)) (f : FileDev) : Prop where
  inv : f.Inv
  i_size : f.i_size.toNat = s.i_size1
  byte : f.byte = s.data

/-- A turn of the loop of `readi`. -/
theorem OnFile.readi (h : OnFile s f) (hfree : 4 ≤ f.free.length) {count off : ℕ}
    {got : List (BitVec 8)} (hoff : u.u_offset.toNat = off) (hlt : off < s.i_size1)
    (hcount : u.u_count.toNat = count - got.length) (hpos : 0 < u.u_count.toInt) (mem : Mem) :
    ∃ mv f' mem' n, f.readTurn mem u = ((some mv, u.advance n), f', mem') ∧ OnFile s f' ∧
      s.readi p count off got = s.readiLoop p count (off + n) (got ++
        (List.range n).map fun i => mem' (u.u_base + BitVec.ofNat 16 i)) := by
  obtain ⟨mv, f', hturn, hinv, hsize, hbyte, -⟩ :=
    h.inv.readTurn mem hfree hpos (by rw [hoff, h.i_size]; exact hlt)
  have hn : f.readable u = min (min (512 - off % 512) (count - got.length)) (s.i_size1 - off) := by
    unfold FileDev.readable FileDev.turn
    rw [hoff, hcount, h.i_size]
  have hle : f.readable u ≤ 65536 := by omega
  refine ⟨mv, f', _, _, hturn, ⟨hinv, by rw [hsize, h.i_size], by rw [hbyte, h.byte]⟩, ?_⟩
  rw [FileDev.map_delivered mem _ _ _ hle, hoff, h.byte, PipeSys.readi, ← hn, slice,
    Nat.add_sub_cancel_left]

/-- The loop of `readi` goes on, or `readp` unlocks. -/
theorem OnFile.of_readiLoop (h : OnFile s f) {count off : ℕ} {got : List (BitVec 8)} :
    OnFile (s.readiLoop p count off got) f := by
  unfold PipeSys.readiLoop
  split <;> exact ⟨h.inv, h.i_size, h.byte⟩

/-- Bytes of the memory over those of an array. -/
theorem overwritten_eq (byte : ℕ → (BitVec 8)) (off : ℕ) {base : BitVec 16} {bs : List (BitVec 8)}
    (hbs : ∀ i (hi : i < bs.length), mem (base + BitVec.ofNat 16 i) = bs[i]) :
    FileDev.overwritten byte off bs.length mem base = overwrite byte off bs := by
  funext pos
  unfold FileDev.overwritten overwrite
  by_cases hlow : off ≤ pos
  · by_cases hhigh : pos < off + bs.length
    · have hi : pos - off < bs.length := by omega
      rw [if_pos ⟨hlow, hhigh⟩, if_pos hlow, hbs _ hi, List.getD_eq_getElem _ _ hi]
    · rw [if_neg (by omega), if_pos hlow, List.getD_eq_default _ _ (by omega)]
  · rw [if_neg (by omega), if_neg hlow]

/-- Flags and wakeups are not in the file. -/
theorem written_file (s : PipeSys π (BitVec 8)) (p : π) (buf : List (BitVec 8)) (done : ℕ) :
    (s.written p buf done).data = s.data ∧ (s.written p buf done).i_size1 = s.i_size1 := by
  unfold written
  dsimp only
  split <;> exact ⟨rfl, rfl⟩

/-- A turn of the loop of `writei`, with the rest of the bytes at `u_base`. -/
theorem OnFile.writei (h : OnFile s f) (hfree : 4 ≤ f.free.length) {buf : List (BitVec 8)}
    {done off count : ℕ} (hoff : u.u_offset.toNat = off) (hcount : u.u_count.toNat = count)
    (hpos : 0 < u.u_count.toInt) (hend : off + count < 2 ^ 24) (hle : done + count ≤ buf.length)
    (hmem : ∀ i < count, mem (u.u_base + BitVec.ofNat 16 i) = buf.getD (done + i) 0) :
    ∃ mv f' n, f.writeTurn mem u = ((some mv, u.advance n), f') ∧
      OnFile (s.writei p buf done off count) f' := by
  obtain ⟨mv, f', hturn, hinv, hsize, hbyte, -⟩ :=
    h.inv.writeTurn mem hfree hpos (by rw [hoff, hcount]; exact hend)
  have hn : FileDev.turn u = min (512 - off % 512) count := by
    unfold FileDev.turn
    rw [hoff, hcount]
  generalize hbs : (buf.drop done).take (FileDev.turn u) = bs
  have hlen : bs.length = FileDev.turn u := by
    rw [← hbs, List.length_take, List.length_drop]
    omega
  have hbytes : ∀ i (hi : i < bs.length), mem (u.u_base + BitVec.ofNat 16 i) = bs[i] := by
    intro i hi
    subst hbs
    rw [List.getElem_take, List.getElem_drop, hmem i (by omega)]
    exact List.getD_eq_getElem _ _ _
  have hdata : (s.writei p buf done off count).data = overwrite s.data off bs ∧
      (s.writei p buf done off count).i_size1 = max s.i_size1 (off + FileDev.turn u) := by
    have hmax : (if s.i_size1 < off + FileDev.turn u then off + FileDev.turn u else s.i_size1) =
        max s.i_size1 (off + FileDev.turn u) := by
      split <;> omega
    rw [PipeSys.writei, ← hn, hbs, hmax]
    split
    · exact written_file _ p buf _
    · exact ⟨rfl, rfl⟩
  refine ⟨mv, f', _, hturn, hinv, ?_, ?_⟩
  · rw [hsize, h.i_size, hoff, hdata.2]
  · rw [hbyte, h.byte, hoff, hdata.1, ← hlen, overwritten_eq s.data off hbytes]

end PipeSys

/-! ## Counts -/

/-- The count of a read call is an `int` that is not negative. -/
def PipePc.Small {β : Type} : PipePc β → Prop
  | .readPlock count => count ≤ 32767
  | .readSleep count => count ≤ 32767
  | .readi count _ _ => count ≤ 32767
  | _ => True

namespace PipeSys

variable {π β : Type} [DecidableEq π] {t t' : PipeSys π β} {p : π}

/-- All counts are. -/
def Small (t : PipeSys π β) : Prop := ∀ p, (t.pc p).Small

/-- A process goes on with a small count. -/
theorem Small.goto (h : t.Small) {k : PipePc β} (hk : k.Small) : (t.goto p k).Small := by
  intro q
  have hpc : (t.goto p k).pc = update t.pc p k := rfl
  rw [hpc]
  by_cases hq : q = p
  · rw [hq, update_self]
    exact hk
  · rw [update_of_ne hq]
    exact h q

omit [DecidableEq π] in
/-- Only the places count. -/
theorem Small.of_pc (h : t.Small) (hpc : t'.pc = t.pc) : t'.Small := by
  unfold Small
  rw [hpc]
  exact h

omit [DecidableEq π] in
/-- A wakeup keeps the count. -/
theorem Small.wakeWriters (h : t.Small) : t.wakeWriters.Small := by
  intro q
  have hq := h q
  unfold PipeSys.wakeWriters
  dsimp only
  split
  · trivial
  · exact hq

omit [DecidableEq π] in
/-- A wakeup keeps the count of a reader. -/
theorem Small.wakeReaders (h : t.Small) : t.wakeReaders.Small := by
  intro q
  have hq := h q
  unfold PipeSys.wakeReaders
  dsimp only
  split
  · next count heq =>
    rw [heq] at hq
    exact hq
  · exact hq

omit [DecidableEq π] in
/-- The reset of the file keeps the counts. -/
theorem Small.rewind (h : t.Small) : t.rewind.Small := by
  unfold PipeSys.rewind
  dsimp only
  split
  · split
    · exact Small.wakeWriters h
    · exact h
  · exact h

/-- `readi` comes back, or goes on with the same count. -/
theorem Small.readiLoop (h : t.Small) {count off : ℕ} {got : List β} (hcount : count ≤ 32767) :
    (t.readiLoop p count off got).Small := by
  unfold PipeSys.readiLoop
  split
  · exact Small.goto h trivial
  · exact h.goto hcount

/-- `readp` sleeps or reads with its count. -/
theorem Small.readp (h : t.Small) {count : ℕ} (hcount : count ≤ 32767) :
    (t.readp p count).Small := by
  unfold PipeSys.readp
  dsimp only
  split
  · exact Small.goto h hcount
  · split
    · split
      · exact Small.goto h.rewind trivial
      · exact Small.goto h.rewind hcount
    · have hlock : ({ t with ilock := true } : PipeSys π β).Small := h.of_pc rfl
      exact hlock.readiLoop hcount

/-- `writep` has no count of a read call. -/
theorem Small.writep (h : t.Small) {buf : List β} {done : ℕ} : (t.writep p buf done).Small := by
  unfold PipeSys.writep
  split_ifs <;> exact Small.goto h trivial

theorem Small.written (h : t.Small) {buf : List β} {done : ℕ} : (t.written p buf done).Small := by
  unfold PipeSys.written
  dsimp only
  split
  · exact Small.goto (Small.wakeReaders h) trivial
  · exact Small.goto h trivial

theorem Small.writei (h : t.Small) {buf : List β} {done off count : ℕ} :
    (t.writei p buf done off count).Small := by
  unfold PipeSys.writei
  dsimp only
  split
  · refine Small.written ?_
    exact h.of_pc rfl
  · refine Small.goto ?_ trivial
    exact h.of_pc rfl

/-- Only a call of `read` brings a count, and the system call refuses a negative one. -/
theorem Small.step (h : t.Small) {a : PipeAct π β} (hs : t.step a = some t') : t'.Small := by
  cases a with
  | read p count =>
    unfold PipeSys.step at hs
    dsimp only at hs
    split at hs
    · obtain ⟨hle, hs⟩ := Option.ite_none_right_eq_some.mp hs
      obtain rfl := Option.some.inj hs
      exact h.readp hle
    · cases hs
  | write p buf =>
    unfold PipeSys.step at hs
    dsimp only at hs
    split at hs
    · obtain ⟨-, hs⟩ := Option.ite_none_right_eq_some.mp hs
      obtain rfl := Option.some.inj hs
      exact h.writep
    · cases hs
  | run p =>
    have hp := h p
    unfold PipeSys.step at hs
    dsimp only at hs
    split at hs
    · next count heq =>
      rw [heq] at hp
      obtain rfl := Option.some.inj hs
      exact h.readp hp
    · next count off got heq =>
      rw [heq] at hp
      obtain rfl := Option.some.inj hs
      exact Small.readiLoop h hp
    · obtain rfl := Option.some.inj hs
      exact h.writep
    · obtain rfl := Option.some.inj hs
      exact h.writei
    all_goals cases hs
  | abandon p =>
    unfold PipeSys.step at hs
    dsimp only at hs
    split at hs <;> cases hs <;> exact Small.goto h trivial
  | stray p =>
    have hp := h p
    unfold PipeSys.step at hs
    dsimp only at hs
    split at hs
    · next count heq =>
      rw [heq] at hp
      obtain rfl := Option.some.inj hs
      exact h.goto hp
    · obtain rfl := Option.some.inj hs
      exact h.goto trivial
    all_goals cases hs
  | closef =>
    obtain rfl := Option.some.inj hs
    exact Small.wakeReaders (Small.wakeWriters h)
  | closei =>
    obtain ⟨-, hs⟩ := Option.ite_none_right_eq_some.mp hs
    obtain rfl := Option.some.inj hs
    exact Small.wakeReaders (Small.wakeWriters h)

/-! ## Steps that do not touch the file -/

/-- The process is about to move bytes. -/
def Moves (t : PipeSys π β) : PipeAct π β → Prop
  | .run p => (t.pc p).inside
  | _ => False

omit [DecidableEq π] in
/-- The reset is one of the size. -/
theorem rewind_data (t : PipeSys π β) : t.rewind.data = t.data := by
  unfold rewind
  dsimp only
  split_ifs <;> rfl

/-- `readp` looks at the size only. -/
theorem readp_data (t : PipeSys π β) (p : π) (count : ℕ) : (t.readp p count).data = t.data := by
  unfold readp readiLoop
  dsimp only
  split_ifs <;> first | rfl | exact rewind_data t

/-- `writep` looks at the size only. -/
theorem writep_data (t : PipeSys π β) (p : π) (buf : List β) (done : ℕ) :
    (t.writep p buf done).data = t.data := by
  unfold writep
  split_ifs <;> rfl

/-- Only `readi` and `writei` touch the bytes. -/
theorem data_step {a : PipeAct π β} (ha : ¬ t.Moves a) (hs : t.step a = some t') :
    t'.data = t.data := by
  cases a with
  | read p count =>
    unfold step at hs
    dsimp only at hs
    split at hs
    · obtain ⟨-, hs⟩ := Option.ite_none_right_eq_some.mp hs
      rw [← Option.some.inj hs]
      exact readp_data t p count
    · cases hs
  | write p buf =>
    unfold step at hs
    dsimp only at hs
    split at hs
    · obtain ⟨-, hs⟩ := Option.ite_none_right_eq_some.mp hs
      rw [← Option.some.inj hs]
      exact writep_data t p buf 0
    · cases hs
  | run p =>
    have ha : ¬ (t.pc p).inside := ha
    unfold step at hs
    dsimp only at hs
    split at hs
    · rw [← Option.some.inj hs]
      exact readp_data t p _
    · next heq =>
      rw [heq] at ha
      exact absurd trivial ha
    · rw [← Option.some.inj hs]
      exact writep_data t p _ _
    · next heq =>
      rw [heq] at ha
      exact absurd trivial ha
    all_goals cases hs
  | abandon p =>
    unfold step at hs
    dsimp only at hs
    split at hs <;> cases hs <;> rfl
  | stray p =>
    unfold step at hs
    dsimp only at hs
    split at hs <;> cases hs <;> rfl
  | closef =>
    obtain rfl := Option.some.inj hs
    rfl
  | closei =>
    obtain ⟨-, hs⟩ := Option.ite_none_right_eq_some.mp hs
    obtain rfl := Option.some.inj hs
    rfl

end PipeSys

/-! ## A pipe on a device -/

/-- A pipe, and its file. -/
structure PipeDev (π : Type) where
  pipe : PipeSys π (BitVec 8)
  file : FileDev

namespace PipeDev

variable {π : Type} [DecidableEq π] {x x' x₀ : PipeDev π} {p : π}

/-- Bytes at address 0. -/
def ofBytes (bs : List (BitVec 8)) : Mem := fun a => bs.getD a.toNat 0

/-- The arguments of a turn, at address 0. -/
def args (count off : ℕ) : IoArgs := ⟨0, BitVec.ofNat 16 count, BitVec.ofNat 32 off, 0⟩

/-- The file after a step that leads to the pipe `s`. A turn of `readi` or `writei` works on the
blocks, and any other step sets the size, if it is not the same. -/
def fileAfter (x : PipeDev π) (s : PipeSys π (BitVec 8)) : PipeAct π (BitVec 8) → FileDev
  | .run p =>
    match x.pipe.pc p with
    | .readi count off got =>
      (x.file.readTurn (fun _ => 0) (args (count - got.length) off)).2.1
    | .writei buf done off count => (x.file.writeTurn (ofBytes (buf.drop done)) (args count off)).2
    | _ => { x.file with i_size := BitVec.ofNat 24 s.i_size1 }
  | _ => { x.file with i_size := BitVec.ofNat 24 s.i_size1 }

/-- One step of the pipe, with its file. -/
def step (x : PipeDev π) (a : PipeAct π (BitVec 8)) : Option (PipeDev π) :=
  (x.pipe.step a).map fun s => ⟨s, x.fileAfter s a⟩

/-- A side of the pipe is closed only when nobody is at work on the file, and there are blocks for
what `bmap` may have to make. -/
def Ok (x : PipeDev π) (a : PipeAct π (BitVec 8)) : Prop :=
  x.pipe.ClosesUnlocked a ∧ 4 ≤ x.file.free.length

/-- What holds at every moment. -/
structure Inv (x : PipeDev π) : Prop where
  pipe : x.pipe.Inv
  small : x.pipe.Small
  onFile : x.pipe.OnFile x.file

/-- A step that moves nothing. -/
theorem Inv.quiet (h : x.Inv) {s : PipeSys π (BitVec 8)} (hs : s.Inv)
    (hdata : s.data = x.pipe.data) : s.OnFile { x.file with i_size := BitVec.ofNat 24 s.i_size1 } where
  inv := ⟨h.onFile.inv.distinct, h.onFile.inv.nodup, h.onFile.inv.zero, h.onFile.inv.fresh⟩
  i_size := by
    have hcap := hs.stored.cap
    unfold PIPSIZ at hcap
    dsimp only
    rw [BitVec.toNat_ofNat]
    omega
  byte := by
    rw [hdata]
    exact h.onFile.byte

/-- The arguments fit into the words. -/
theorem args_eq (count off : ℕ) (hcount : count ≤ 32767) (hoff : off ≤ 4096) :
    (args count off).u_offset.toNat = off ∧ (args count off).u_count.toNat = count ∧
      (0 < count → 0 < (args count off).u_count.toInt) := by
  unfold args
  refine ⟨?_, ?_, fun hpos => ?_⟩
  · rw [BitVec.toNat_ofNat]
    omega
  · rw [BitVec.toNat_ofNat]
    omega
  · rw [BitVec.toInt_eq_toNat_of_lt (by rw [BitVec.toNat_ofNat]; omega), BitVec.toNat_ofNat]
    omega

omit [DecidableEq π] in
/-- Where nothing is moved, only the size may be set. -/
theorem fileAfter_quiet {a : PipeAct π (BitVec 8)} (ha : ¬ x.pipe.Moves a)
    (s : PipeSys π (BitVec 8)) :
    x.fileAfter s a = { x.file with i_size := BitVec.ofNat 24 s.i_size1 } := by
  cases a with
  | run p =>
    have hquiet : ¬ (x.pipe.pc p).inside := ha
    unfold fileAfter
    dsimp only
    split
    · next heq =>
      rw [heq] at hquiet
      exact absurd trivial hquiet
    · next heq =>
      rw [heq] at hquiet
      exact absurd trivial hquiet
    · rfl
  | _ => rfl

/-- A turn of `readi` finds its bytes in the file. -/
theorem Inv.readi {count off : ℕ} {got : List (BitVec 8)} (h : x.Inv)
    (hfree : 4 ≤ x.file.free.length) (hpc : x.pipe.pc p = .readi count off got)
    {u : IoArgs} (hoff : u.u_offset = BitVec.ofNat 32 off)
    (hcount : u.u_count = BitVec.ofNat 16 (count - got.length)) (mem : Mem) :
    ∃ mv f' mem' n, x.file.readTurn mem u = ((some mv, u.advance n), f', mem') ∧
      x.pipe.OnFile f' ∧
      x.pipe.readi p count off got = x.pipe.readiLoop p count (off + n) (got ++
        (List.range n).map fun i => mem' (u.u_base + BitVec.ofNat 16 i)) := by
  have hfits := h.pipe.fits p
  have hsmall := h.small p
  rw [hpc] at hfits hsmall
  obtain ⟨-, -, hlt, -, hleft⟩ := hfits
  have hcap := h.pipe.stored.cap
  unfold PIPSIZ at hcap
  have hle : count ≤ 32767 := hsmall
  obtain ⟨hoff', hcount', hpos⟩ := args_eq (count - got.length) off (by omega)
    (by omega)
  unfold args at hoff' hcount' hpos
  dsimp only at hoff' hcount' hpos
  rw [← hoff] at hoff'
  rw [← hcount] at hcount' hpos
  exact h.onFile.readi hfree hoff' hlt hcount' (hpos (by omega)) mem

/-- A turn of `writei` puts its bytes into the file. -/
theorem Inv.writei {buf : List (BitVec 8)} {done off count : ℕ} (h : x.Inv)
    (hfree : 4 ≤ x.file.free.length) (hpc : x.pipe.pc p = .writei buf done off count) :
    ∃ mv f' n, x.file.writeTurn (ofBytes (buf.drop done)) (args count off) =
        ((some mv, (args count off).advance n), f') ∧
      (x.pipe.writei p buf done off count).OnFile f' := by
  have hfits := h.pipe.fits p
  rw [hpc] at hfits
  obtain ⟨-, hoff, hle, hend, hpos⟩ := hfits
  unfold PIPSIZ at hend
  obtain ⟨hoff', hcount', hpos'⟩ := args_eq count off (by omega) (by omega)
  have hmem : ∀ i < count, ofBytes (buf.drop done)
      ((args count off).u_base + BitVec.ofNat 16 i) = buf.getD (done + i) 0 := by
    intro i hi
    have hbase : ((args count off).u_base + BitVec.ofNat 16 i).toNat = i := by
      unfold args
      dsimp only
      rw [zero_add, BitVec.toNat_ofNat]
      omega
    unfold ofBytes
    rw [hbase, List.getD_eq_getElem _ _ (by rw [List.length_drop]; omega),
      List.getElem_drop, List.getD_eq_getElem _ _ (by omega)]
  exact h.onFile.writei hfree hoff' hcount' (hpos' hpos) (by omega) hle hmem

/-- Every step keeps the bytes of the pipe in the blocks of the file. -/
theorem Inv.step {a : PipeAct π (BitVec 8)} (h : x.Inv) (hok : x.Ok a) (hs : x.step a = some x') :
    x'.Inv := by
  obtain ⟨s, hstep, rfl⟩ := Option.map_eq_some_iff.mp hs
  have hinv := h.pipe.step hok.1 hstep
  refine ⟨hinv, h.small.step hstep, ?_⟩
  dsimp only
  by_cases ha : x.pipe.Moves a
  · cases a with
    | run p =>
      have hmoves : (x.pipe.pc p).inside := ha
      cases hpc : x.pipe.pc p with
      | readi count off got =>
        obtain ⟨mv, f', mem', n, hturn, honFile, heq⟩ :=
          h.readi hok.2 hpc (u := args (count - got.length) off) rfl rfl fun _ => 0
        have hs' : x.pipe.readi p count off got = s := by
          simpa only [PipeSys.step, hpc, Option.some.injEq] using hstep
        have hfile : x.fileAfter s (.run p) = f' := by
          simp only [fileAfter, hpc, hturn]
        rw [hfile, ← hs', heq]
        exact honFile.of_readiLoop
      | writei buf done off count =>
        obtain ⟨mv, f', n, hturn, honFile⟩ := h.writei hok.2 hpc
        have hs' : x.pipe.writei p buf done off count = s := by
          simpa only [PipeSys.step, hpc, Option.some.injEq] using hstep
        have hfile : x.fileAfter s (.run p) = f' := by
          simp only [fileAfter, hpc, hturn]
        rw [hfile, ← hs']
        exact honFile
      | _ =>
        rw [hpc] at hmoves
        exact hmoves.elim
    | _ => exact ha.elim
  · rw [fileAfter_quiet ha]
    exact h.quiet hinv (PipeSys.data_step ha hstep)

/-- A pipe that has just been made, with the file `f`. -/
def boot (f : FileDev) : PipeDev π := ⟨PipeSys.boot f.byte, f⟩

/-- An empty file, whatever its device has in free blocks. -/
theorem Inv.boot {f : FileDev} (hf : f.Inv) (hempty : f.i_size = 0) :
    (boot f : PipeDev π).Inv where
  pipe := PipeSys.Inv.boot f.byte
  small _ := trivial
  onFile := ⟨hf, congrArg BitVec.toNat hempty, rfl⟩

/-- Whole runs. -/
theorem inv_of_reachable {f : FileDev} (hf : f.Inv) (hempty : f.i_size = 0)
    (h : Reachable step Ok (boot f) x) : x.Inv :=
  h.invariant (Inv.boot hf hempty) fun _ _ _ hinv hok hs => hinv.step hok hs

/-- A pipe is as lossless on the blocks of a device as it is on an array. What has been written is
what the readers have got and, in order, the bytes of the file from `f_offset` on; and a turn of
`readi` that `readp` is in gets its bytes from these blocks. -/
theorem pipe_on_blocks {f : FileDev} (hf : f.Inv) (hempty : f.i_size = 0)
    (h : Reachable step Ok (boot f) x) :
    x.pipe.appended.map Prod.snd = (x.pipe.reads.map Prod.snd).flatten ++
        slice x.file.byte x.pipe.f_offset x.file.i_size.toNat ∧
      ∀ p count off got, x.pipe.pc p = .readi count off got → 4 ≤ x.file.free.length →
        ∀ u mem, u.u_offset = BitVec.ofNat 32 off →
          u.u_count = BitVec.ofNat 16 (count - got.length) →
        ∃ mv f' mem' n, x.file.readTurn mem u = ((some mv, u.advance n), f', mem') ∧
          x.pipe.readi p count off got = x.pipe.readiLoop p count (off + n) (got ++
            (List.range n).map fun i => mem' (u.u_base + BitVec.ofNat 16 i)) := by
  have hinv := inv_of_reachable hf hempty h
  constructor
  · rw [hinv.onFile.byte, hinv.onFile.i_size]
    exact hinv.pipe.stored.fifo
  · intro p count off got hpc hfree u mem hoff hcount
    obtain ⟨mv, f', mem', n, hturn, -, heq⟩ := hinv.readi hfree hpc hoff hcount mem
    exact ⟨mv, f', mem', n, hturn, heq⟩

instance (x : PipeDev π) : (a : PipeAct π (BitVec 8)) → Decidable (x.Ok a)
  | .closei => inferInstanceAs (Decidable (x.pipe.ilock = false ∧ 4 ≤ x.file.free.length))
  | .read _ _ | .write _ _ | .run _ | .abandon _ | .stray _ | .closef =>
    inferInstanceAs (Decidable (True ∧ 4 ≤ x.file.free.length))

/-- A new file on a device with sixteen free blocks. -/
def newFile : FileDev :=
  FileDev.empty (fun _ => 0xff) ((List.range 16).map fun i => BitVec.ofNat 16 (i + 2))

theorem newFile_inv : newFile.Inv :=
  (FileDev.refines_empty (by decide) (by decide)).inv

/-- Six hundred bytes go into two blocks, and are read in two turns. -/
def twoBlocks : List (PipeAct Bool (BitVec 8)) :=
  [.write false ((List.range 600).map fun i => BitVec.ofNat 8 (i % 251)), .run false, .run false,
    .run false, .read true 600, .run true]

/-- The reader has got the bytes of the first block, and the next turn finds the rest. -/
theorem pipe_on_blocks_twoBlocks : ∃ x : PipeDev Bool,
    (∃ got, x.pipe.pc true = .readi 600 512 got) ∧ 4 ≤ x.file.free.length ∧
    (x.pipe.appended.map Prod.snd = (x.pipe.reads.map Prod.snd).flatten ++
        slice x.file.byte x.pipe.f_offset x.file.i_size.toNat ∧
      ∀ p count off got, x.pipe.pc p = .readi count off got → 4 ≤ x.file.free.length →
        ∀ u mem, u.u_offset = BitVec.ofNat 32 off →
          u.u_count = BitVec.ofNat 16 (count - got.length) →
        ∃ mv f' mem' n, x.file.readTurn mem u = ((some mv, u.advance n), f', mem') ∧
          x.pipe.readi p count off got = x.pipe.readiLoop p count (off + n) (got ++
            (List.range n).map fun i => mem' (u.u_base + BitVec.ofNat 16 i))) := by
  have hrun : (checkedSteps step (fun x a => decide (x.Ok a)) twoBlocks (boot newFile)).any
      (fun x => match x.pipe.pc true with
        | .readi count off _ => decide (count = 600 ∧ off = 512 ∧ 4 ≤ x.file.free.length)
        | _ => false) = true := by
    decide +kernel
  obtain ⟨x, hx, hcheck⟩ := (Option.any_eq_true _ _).mp hrun
  have hreach : Reachable step Ok (boot newFile) x :=
    Reachable.refl.of_checkedSteps (fun _ _ => of_decide_eq_true) hx
  split at hcheck
  · next count off got hpc =>
    obtain ⟨rfl, rfl, hfree⟩ := of_decide_eq_true hcheck
    exact ⟨x, ⟨got, hpc⟩, hfree, pipe_on_blocks newFile_inv rfl hreach⟩
  · cases hcheck

end PipeDev

end UnixV6
