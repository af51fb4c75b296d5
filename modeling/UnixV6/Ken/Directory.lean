import UnixV6.Ken.NamiStays
import UnixV6.Lib.Slots

/-!
# Entries (`ken/nami.c`, `wdir` of `ken/iget.c`, `link` of `ken/sys2.c`, `unlink` of `ken/sys4.c`)

An entry of a directory is made where `namei` has left `u_offset`, and removed where it was found.
Entries are 16 bytes, so none of them is split over blocks.
-/

open Function

namespace UnixV6

/-- The bytes of an entry. -/
def Dent.bytes (d : Dent) (k : ℕ) : BitVec 8 :=
  if k = 0 then d.u_ino.setWidth 8
  else if k = 1 then (d.u_ino >>> 8).setWidth 8
  else if h : k - 2 < 14 then d.u_name ⟨k - 2, h⟩ else 0

namespace FileDev

/-- `writei` of `u_dent`, which is at `u_base`. -/
def putDent (dp : FileDev) (u_base : BitVec 16) (u_dent : Dent) (u_offset : BitVec 16)
    (u_error : ℕ) : FileDev × IoArgs :=
  dp.writei (fun a => u_dent.bytes (a - u_base).toNat)
    { u_base, u_count := 16, u_offset := u_offset.setWidth 32, u_error }

end FileDev

/-- `wdir`: what `namei` has left is the directory, the offset and the name. -/
def wdir (u_base : BitVec 16) (s : Search) (u_dbuf : Name) (i_number : BitVec 16) :
    FileDev × IoArgs :=
  s.dp.putDent u_base ⟨i_number, u_dbuf⟩ s.u_offset s.u_error

/-- What `unlink` writes: the entry that was found, with no inode number. -/
def unlinkDent (u_base : BitVec 16) (s : Search) : FileDev × IoArgs :=
  s.dp.putDent u_base { s.u_dent with u_ino := 0 } (s.u_offset - 16) s.u_error

namespace FileDev

/-- `namei` with flag 1 and `wdir`, as `link`, and `creat` and `mknod` with `maknode`, do it; `none`
if the call fails. -/
def link (u_base : BitVec 16) (dp : FileDev) (a : Rights) (component : List (BitVec 8))
    (i_number : BitVec 16) : Option FileDev :=
  (namei a 1 true (gather component) dp).bind fun r =>
    match r.1 with
    | .create _ =>
      let x := wdir u_base r.2 (gather component) i_number
      if x.2.u_error = 0 then some x.1 else none
    | _ => none

/-- `unlink`; `none` if the call fails. -/
def unlink (u_base : BitVec 16) (dp : FileDev) (a : Rights) (component : List (BitVec 8)) :
    Option FileDev :=
  (namei a 2 true (gather component) dp).bind fun r =>
    match r.1 with
    | .delete =>
      let x := unlinkDent u_base r.2
      if x.2.u_error = 0 then some x.1 else none
    | _ => none

/-- The inode that `namei` goes on to, or its error. -/
def lookup (dp : FileDev) (a : Rights) (flag : ℕ) (last : Bool) (component : List (BitVec 8)) :
    Option (Except ℕ (BitVec 16)) :=
  (namei a flag last (gather component) dp).map fun r =>
    match r.1 with
    | .inode => .ok r.2.u_dent.u_ino
    | _ => .error r.2.u_error

end FileDev

/-- The bytes of a component: neither `NUL` nor `/`. -/
def IsComponent (component : List (BitVec 8)) : Prop := ∀ c ∈ component, c ≠ 0 ∧ c ≠ 0x2f

/-! ## Names -/

/-- Pushing a component keeps its first 14 bytes and drops the rest. -/
theorem Gather.foldl_push (component : List (BitVec 8)) (g : Gather) (hg : g.cp ≤ 14) :
    (component.foldl Gather.push g).cp = min 14 (g.cp + component.length) ∧
      ∀ i : Fin 14, (component.foldl Gather.push g).u_dbuf i =
        if g.cp ≤ i ∧ i < g.cp + component.length then component.getD (i - g.cp) 0
        else g.u_dbuf i := by
  induction component generalizing g with
  | nil =>
    refine ⟨by simp [hg], fun i => ?_⟩
    rw [if_neg (by simp only [List.length_nil]; omega)]
    rfl
  | cons c cs ih =>
    rw [List.foldl_cons]
    by_cases hlt : g.cp < 14
    · have hpush : g.push c = ⟨update g.u_dbuf ⟨g.cp, hlt⟩ c, g.cp + 1⟩ := dif_pos hlt
      obtain ⟨hcp, hbuf⟩ := ih (g.push c) (by rw [hpush]; exact hlt)
      rw [hpush] at hcp hbuf ⊢
      simp only [List.length_cons] at hcp hbuf ⊢
      refine ⟨by rw [hcp]; omega, fun i => ?_⟩
      rw [hbuf]
      -- before, at and behind the place of `c`
      rcases lt_trichotomy (i : ℕ) g.cp with hlow | heq | hhigh
      · have hne : i ≠ ⟨g.cp, hlt⟩ := fun heq => by rw [heq] at hlow; exact lt_irrefl _ hlow
        rw [if_neg (by omega), if_neg (by omega), update_of_ne hne]
      · obtain rfl : i = ⟨g.cp, hlt⟩ := Fin.ext heq
        rw [if_neg (by simp), if_pos (by simp), update_self]
        simp
      · have hne : i ≠ ⟨g.cp, hlt⟩ := fun heq => by rw [heq] at hhigh; exact lt_irrefl _ hhigh
        have hsub : (i : ℕ) - g.cp = i - (g.cp + 1) + 1 := by omega
        by_cases hin : (i : ℕ) < g.cp + 1 + cs.length
        · rw [if_pos ⟨hhigh, hin⟩, if_pos ⟨hhigh.le, by omega⟩, hsub, List.getD_cons_succ]
        · rw [if_neg (by omega), if_neg (by omega), update_of_ne hne]
    · -- fourteen characters are kept, the others are dropped
      have hpush : g.push c = g := dif_neg hlt
      obtain ⟨hcp, hbuf⟩ := ih g hg
      rw [hpush]
      simp only [List.length_cons]
      refine ⟨by rw [hcp]; omega, fun i => ?_⟩
      rw [hbuf, if_neg (by omega), if_neg (by omega)]

/-- A name is cut off after 14 bytes, or padded with zeros. -/
theorem gather_apply (component : List (BitVec 8)) (i : Fin 14) :
    gather component i = component.getD i 0 := by
  obtain ⟨hcp, hbuf⟩ := Gather.foldl_push component {} (Nat.zero_le 14)
  simp only [zero_add, Nat.sub_zero, Nat.zero_le, true_and] at hcp hbuf
  simp only [gather, hcp, hbuf]
  by_cases hlt : (i : ℕ) < component.length
  · rw [if_pos (by omega), if_pos hlt]
  · rw [if_neg (by omega), List.getD_eq_default _ _ (not_lt.mp hlt)]

/-- A component reads as its bytes up to the first NUL. -/
theorem IsComponent.getElem? {component : List (BitVec 8)} (h : IsComponent component) (i : ℕ) :
    component[i]? = if component.getD i 0 = 0 then none else some (component.getD i 0) := by
  by_cases hlt : i < component.length
  · have hne := (h _ (List.getElem_mem hlt)).1
    rw [List.getD_eq_getElem _ _ hlt, if_neg hne, List.getElem?_eq_getElem hlt]
  · rw [List.getD_eq_default _ _ (not_lt.mp hlt), if_pos rfl,
      List.getElem?_eq_none (not_lt.mp hlt)]

/-- Names without a `NUL` agree in the directory if their first 14 bytes do. -/
theorem gather_eq_iff {c c' : List (BitVec 8)} (h : IsComponent c) (h' : IsComponent c') :
    gather c = gather c' ↔ c.take 14 = c'.take 14 := by
  constructor
  · intro heq
    apply List.ext_getElem?
    intro i
    rw [List.getElem?_take, List.getElem?_take]
    split
    · next hlt =>
      have hbyte := congrFun heq ⟨i, hlt⟩
      rw [gather_apply, gather_apply] at hbyte
      rw [h.getElem?, h'.getElem?, hbyte]
    · rfl
  · intro heq
    funext i
    have hget := congrArg (fun l => l[(i : ℕ)]?) heq
    simp only [List.getElem?_take, i.isLt, if_true] at hget
    rw [gather_apply, gather_apply, List.getD_eq_getElem?_getD, List.getD_eq_getElem?_getD, hget]

/-! ## Writing an entry -/

/-- Sixteen bytes that are an entry's bytes decode to that entry. -/
theorem Dent.ofBytes_bytes (d : Dent) {byte : ℕ → BitVec 8} {o : ℕ}
    (h : ∀ k, k < 16 → byte (o + k) = d.bytes k) : Dent.ofBytes byte o = d := by
  have h0 := h 0 (by omega)
  have h1 := h 1 (by omega)
  rw [add_zero] at h0
  obtain ⟨u_ino, u_name⟩ := d
  simp only [Dent.ofBytes, Dent.mk.injEq]
  constructor
  · rw [h0, h1]
    ext i hi
    simp only [Dent.bytes, one_ne_zero, if_true, if_false, BitVec.getElem_append,
      BitVec.getElem_setWidth, BitVec.getLsbD_ushiftRight]
    split
    · exact BitVec.getLsbD_eq_getElem hi
    · next hge =>
      rw [Nat.add_sub_cancel' (not_lt.mp hge)]
      exact BitVec.getLsbD_eq_getElem hi
  · funext j
    have hj := h (2 + j) (by omega)
    have hsub : 2 + (j : ℕ) - 2 = j := by omega
    rw [add_assoc, hj, Dent.bytes, if_neg (by omega), if_neg (by omega),
      dif_pos (by rw [hsub]; exact j.isLt)]
    exact congrArg u_name (Fin.ext hsub)

/-- What an entry is in the table. -/
def Dent.slot (d : Dent) : Option (Name × BitVec 16) :=
  if d.u_ino = 0 then none else some (d.u_name, d.u_ino)

/-- The comparison of `namei` succeeds exactly at a used slot of that name. -/
theorem Dent.matched_iff (d : Dent) (u_dbuf : Name) :
    d.matched u_dbuf = d.slot.any (·.1 = u_dbuf) := by
  unfold Dent.matched Dent.slot
  split
  · next h0 => simp [h0]
  · next hne =>
    rw [Option.any_some]
    exact decide_eq_decide.mpr (and_iff_right hne)

namespace FileDev

/-- The table that a directory is. -/
def slots (dp : FileDev) : Slots Name (BitVec 16) where
  size := dp.entries
  slot i := (dp.dent i).slot

variable {s dp : FileDev} {u : IoArgs} {i : ℕ}

/-- The scan of `namei` is the slot array's own search. -/
theorem firstMatch_eq_index (dp : FileDev) (u_dbuf : Name) :
    dp.firstMatch u_dbuf = dp.slots.index u_dbuf := by
  unfold firstMatch Slots.index
  simp only [Dent.matched_iff]
  rfl

/-- The first turn of `writei` is the last one if the count does not go over the end of a block. -/
theorem writei_eq (mem : Mem) (hcount : u.u_count = 16)
    (hagain : XferSys.again (s.writeTurn mem u).1 = false) :
    s.writei mem u = ((s.writeTurn mem u).2, (s.writeTurn mem u).1.2) := by
  have hne : u.u_count ≠ 0 := by rw [hcount]; decide
  rw [writei, if_neg hne, hcount]
  show writeLoop mem (15 + 1) s u = _
  unfold writeLoop
  rw [if_neg (by rw [hagain]; decide)]

/-- An entry is written, or there is no block for it. -/
theorem Inv.writei_entry (h : s.Inv) (mem : Mem) (hcount : u.u_count = 16)
    (hoff : u.u_offset.toNat = 16 * i) (hi : i < 2048) :
    (s.writei mem u).2.u_error = ENOSPC ∨ ∃ s', s.writei mem u = (s', u.advance 16) ∧ s'.Inv ∧
      s'.i_size.toNat = max s.i_size.toNat (16 * i + 16) ∧
      s'.byte = overwritten s.byte (16 * i) 16 mem u.u_base ∧
      (∀ r, s.node r ≠ 0 → s'.node r = s.node r) ∧ s'.node (.data (i / 32)) ≠ 0 := by
  have hdiv : u.u_offset.toNat / 512 = i / 32 := by omega
  obtain ⟨hlbn, hmsb⟩ := IoArgs.lbn_toNat (u := u) (by omega)
  obtain ⟨hext, hmapped⟩ := h.bmap (show i / 32 < 32768 by omega)
  have henv : s.env u = (⟨(s.bmap (i / 32)).1, if (s.bmap (i / 32)).1 = 0 then ENOSPC else 0,
      fun _ => false⟩, (s.bmap (i / 32)).2) := by
    rw [FileDev.env, if_neg (by simp [hmsb]), hlbn, hdiv]
  generalize s.bmap (i / 32) = x at hext hmapped henv
  obtain ⟨bn, s₁⟩ := x
  rcases hmapped with hmapped | ⟨-, hzero⟩
  · -- an entry never crosses a block, so one turn writes it all
    right
    have hbn : bn ≠ 0 := hmapped.ne
    have hmapped' : Mapped s (u.u_offset.toNat / 512) 4 (bn, s₁) := by rwa [hdiv]
    simp only [if_neg hbn] at henv
    have hcnt : u.u_count.toNat = 16 := by rw [hcount]; rfl
    have hturn : turn u = 16 := by
      rw [turn, hcnt]
      omega
    obtain ⟨mv, s', heq, hinv, hsize, hbyte, -, hnode⟩ := hmapped'.writeTurn henv mem
      (by rw [hcount]; decide) (by omega)
    rw [hturn] at heq hsize hbyte
    -- nothing is left
    have hdone : XferSys.again (s.writeTurn mem u).1 = false := by
      have hzero := (advance_u_count_eq_zero (u := u) (n := 16) (by omega)).mpr (by omega)
      rw [heq, ← Bool.not_eq_true, again_iff]
      exact fun hagain => hagain.2.2 hzero
    refine ⟨s', ?_, hinv, by rw [hsize, hoff], by rw [hbyte, hoff], fun r hr => ?_, ?_⟩
    · rw [writei_eq mem hcount hdone, heq]
    · rw [hnode]
      exact hext.node r hr
    · have hdata : s₁.node (.data (i / 32)) = bn := hmapped.node
      rw [hnode, hdata]
      exact hbn
  · left
    -- no block is free
    obtain rfl : bn = 0 := hzero
    have hturn : (s.writeTurn mem u).1 = (none, { u with u_error := ENOSPC }) := by
      unfold FileDev.writeTurn
      simp only [henv, if_true, IoArgs.writei, IoArgs.bmap, hmsb, reduceCtorEq, Bool.false_eq_true,
        if_false, IoArgs.setError]
      rfl
    rw [writei_eq mem hcount (by rw [hturn]; rfl), hturn]

/-- What an entry that was written does to the directory. -/
theorem IsDir.putDent (h : dp.IsDir) (hinv : dp.Inv) {u_base : BitVec 16} {d : Dent}
    {u_offset : BitVec 16} {u_error : ℕ} {x : FileDev × IoArgs}
    (hx : dp.putDent u_base d u_offset u_error = x) (hoff : u_offset = BitVec.ofNat 16 (16 * i))
    (hi : i ≤ dp.entries) (hlt : i < 2048) (herr : x.2.u_error = 0) :
    x.1.Inv ∧ x.1.IsDir ∧ x.1.entries = max dp.entries (i + 1) ∧
      x.1.dent = update dp.dent i d := by
  unfold FileDev.putDent at hx
  generalize hu : (⟨u_base, 16, u_offset.setWidth 32, u_error⟩ : IoArgs) = u at hx
  have hoff' : u.u_offset.toNat = 16 * i := by
    rw [← hu, hoff, BitVec.toNat_setWidth, BitVec.toNat_ofNat]
    omega
  rcases hinv.writei_entry (fun a => d.bytes (a - u_base).toNat) (by rw [← hu]) hoff' hlt with
    hspace | ⟨s', heq, hinv', hsize, hbyte, hnode, hnew⟩
  · rw [← hx, hspace] at herr
    cases herr
  · have hdirsize := h.i_size
    have hsmall := h.i_size0
    obtain rfl : (s', u.advance 16) = x := heq.symm.trans hx
    dsimp only
    have hentries : s'.entries = max dp.entries (i + 1) := by
      rw [entries, hsize]
      omega
    refine ⟨hinv', ⟨by omega, by omega, fun j hj => ?_⟩, hentries, ?_⟩
    · show s'.node (.data (j / 32)) ≠ 0
      -- an old entry, or the new one
      by_cases hold : j < dp.entries
      · rw [hnode _ (h.allocated j hold)]
        exact h.allocated j hold
      · have heq : j = i := by
          change j < s'.entries at hj
          omega
        rw [heq]
        exact hnew
    · funext j
      rcases eq_or_ne j i with rfl | hne
      · rw [update_self]
        refine Dent.ofBytes_bytes d fun k hk => ?_
        show s'.byte (16 * j + k) = d.bytes k
        rw [hbyte, overwritten, if_pos (by omega), Nat.add_sub_cancel_left, ← hu]
        show d.bytes (u_base + BitVec.ofNat 16 k - u_base).toNat = d.bytes k
        rw [BitVec.add_comm, BitVec.add_sub_cancel, BitVec.toNat_ofNat, Nat.mod_eq_of_lt (by omega)]
      · rw [update_of_ne hne]
        -- the bytes of the other entries stay
        have hsame : ∀ k, k < 16 → s'.byte (16 * j + k) = dp.byte (16 * j + k) := by
          intro k hk
          rw [hbyte, overwritten, if_neg (by omega)]
        have h0 := hsame 0 (by omega)
        rw [add_zero] at h0
        show Dent.ofBytes s'.byte (16 * j) = Dent.ofBytes dp.byte (16 * j)
        simp only [Dent.ofBytes, h0, hsame 1 (by omega), Dent.mk.injEq, true_and]
        funext l
        rw [add_assoc, hsame (2 + l) (by omega)]

end FileDev

/-! ## The calls -/

theorem Dent.isNone_slot (d : Dent) : d.slot.isNone = decide (d.u_ino = 0) := by
  unfold Dent.slot
  split
  · next h0 => exact (decide_eq_true h0).symm
  · next hne => exact (decide_eq_false hne).symm

/-- A directory: its entries are in its own blocks, and no name is in two of them. -/
structure Directory (dp : FileDev) : Prop where
  inv : dp.Inv
  isDir : dp.IsDir
  distinct : dp.slots.Distinct

namespace FileDev

variable {dp dp' : FileDev} {u_base i_number : BitVec 16} {a : Rights} {c : List (BitVec 8)} {i : ℕ}

/-- The offset left for a new entry: the first free slot's end, or zero if none is free. -/
theorem afterFree_entries (dp : FileDev) : dp.afterFree dp.entries =
    if dp.slots.firstFree < dp.entries then 16 * dp.slots.firstFree + 16 else 0 := by
  have hfind : dp.slots.firstFree =
      ((List.range dp.entries).find? fun i => (dp.dent i).u_ino = 0).getD dp.entries := by
    simp only [Slots.firstFree, slots, Dent.isNone_slot]
  rw [hfind, afterFree]
  cases hcases : (List.range dp.entries).find? fun i => (dp.dent i).u_ino = 0 with
  | none => simp
  | some j =>
    have hlt : j < dp.entries := List.mem_range.mp (List.find?_range_eq_some.mp hcases).2.1
    simp [hlt]

/-- `wdir` finds the first free slot in `u_offset`, or the end of the directory. -/
theorem leave_create {s : Search} (hsmall : dp.entries < 2048) (hat : s.At dp dp.entries) :
    (access a IWRITE ≠ 0 ∧ (s.leave a 1 true false).1 = .out) ∨
      ∃ iupd u_offset, s.leave a 1 true false = (.create iupd, { s with u_offset }) ∧
        u_offset = BitVec.ofNat 16 (16 * dp.slots.firstFree) := by
  by_cases haccess : access a IWRITE = 0
  · right
    have hle : dp.slots.firstFree ≤ dp.entries := dp.slots.firstFree_le
    have heo := hat.eo
    rw [afterFree_entries] at heo
    by_cases hfree : dp.slots.firstFree < dp.entries
    · rw [if_pos hfree] at heo
      -- `eo` is the offset behind the free slot
      have hne : s.eo ≠ 0 := by
        intro h0
        have hnat := congrArg BitVec.toNat (heo.symm.trans h0)
        rw [BitVec.toNat_ofNat] at hnat
        change _ = 0 at hnat
        omega
      refine ⟨false, s.eo - 16, ?_, ?_⟩
      · rw [Search.leave, if_neg Bool.false_ne_true, if_pos ⟨rfl, rfl⟩,
          if_neg (not_not.mpr haccess), if_pos hne]
      · rw [heo, BitVec.ofNat_add]
        exact BitVec.add_sub_cancel _ _
    · rw [if_neg hfree] at heo
      -- no slot is free: the search ends at the end of the directory
      have heq : dp.slots.firstFree = dp.entries := by omega
      have h0 : s.eo = 0 := heo
      refine ⟨true, s.u_offset, ?_, by rw [hat.u_offset, heq]⟩
      rw [Search.leave, if_neg Bool.false_ne_true, if_pos ⟨rfl, rfl⟩, if_neg (not_not.mpr haccess),
        if_neg (not_not.mpr h0)]
  · exact .inl ⟨haccess, by simp [Search.leave, haccess]⟩

/-- `link` of a name that `namei` did not find stores the entry unless `wdir` sets an error. -/
theorem link_create {s : Search} {iupd : Bool}
    (h : namei a 1 true (gather c) dp = some (.create iupd, s)) :
    dp.link u_base a c i_number =
      if (wdir u_base s (gather c) i_number).2.u_error = 0 then
        some (wdir u_base s (gather c) i_number).1
      else none := by
  rw [FileDev.link, h]
  rfl

/-- `unlink` of a name that `namei` found clears the entry unless its store sets an error. -/
theorem unlink_delete {s : Search} (h : namei a 2 true (gather c) dp = some (.delete, s)) :
    dp.unlink u_base a c =
      if (unlinkDent u_base s).2.u_error = 0 then some (unlinkDent u_base s).1 else none := by
  rw [FileDev.unlink, h]
  rfl

/-- The entry is made where the first free slot is, or at the end; there was none of the name. -/
theorem link_eq_some (h : dp.IsDir) (hinv : dp.Inv) (hsmall : dp.entries < 2048)
    (hlink : dp.link u_base a c i_number = some dp') :
    dp.slots.index (gather c) = none ∧ dp'.Inv ∧ dp'.IsDir ∧
      dp'.entries = max dp.entries (dp.slots.firstFree + 1) ∧
      dp'.dent = update dp.dent dp.slots.firstFree ⟨i_number, gather c⟩ := by
  have hle : dp.slots.firstFree ≤ dp.entries := dp.slots.firstFree_le
  rw [← firstMatch_eq_index]
  cases hm : dp.firstMatch (gather c) with
  | some m =>
    -- the name is there already
    obtain ⟨hentry, -⟩ := firstMatch_eq_some.mp hm
    obtain ⟨s, hnamei, -⟩ := namei_found a 1 true h hm (hentry.trans hsmall)
    rw [FileDev.link, hnamei] at hlink
    cases hlink
  | none =>
    obtain ⟨s, hnamei, hat⟩ := namei_missing a 1 true h hm hsmall
    rcases leave_create (a := a) hsmall hat with ⟨-, hout⟩ | ⟨iupd, u_offset, hcreate, hoff⟩
    · rw [FileDev.link, hnamei, Option.bind_some, hout] at hlink
      cases hlink
    · rw [hcreate] at hnamei
      rw [link_create hnamei] at hlink
      -- the new entry is written where the search has left the offset
      have hwdir : wdir u_base { s with u_offset } (gather c) i_number =
          dp.putDent u_base ⟨i_number, gather c⟩ u_offset s.u_error := by
        rw [wdir, hat.file]
      rw [hwdir] at hlink
      generalize hx : dp.putDent u_base ⟨i_number, gather c⟩ u_offset s.u_error = x at hlink
      obtain ⟨herr, hdp⟩ := Option.ite_none_right_eq_some.mp hlink
      obtain ⟨hinv', hdir, hentries, hdent⟩ := h.putDent hinv hx hoff hle (by omega) herr
      obtain rfl := Option.some.inj hdp
      exact ⟨rfl, hinv', hdir, hentries, hdent⟩

/-- The inode number of the entry that was found is cleared. -/
theorem unlink_eq_some (h : dp.IsDir) (hinv : dp.Inv) (hsmall : dp.entries < 2048)
    (hunlink : dp.unlink u_base a c = some dp') :
    ∃ m, dp.slots.index (gather c) = some m ∧ dp'.Inv ∧ dp'.IsDir ∧
      dp'.entries = max dp.entries (m + 1) ∧
      dp'.dent = update dp.dent m { dp.dent m with u_ino := 0 } := by
  rw [← firstMatch_eq_index]
  cases hm : dp.firstMatch (gather c) with
  | none =>
    obtain ⟨s, hnamei, hat⟩ := namei_missing a 2 true h hm hsmall
    rw [FileDev.unlink, hnamei] at hunlink
    cases hunlink
  | some m =>
    obtain ⟨hentry, -⟩ := firstMatch_eq_some.mp hm
    obtain ⟨s, hnamei, hat, hu_dent⟩ := namei_found a 2 true h hm (hentry.trans hsmall)
    by_cases haccess : access a IWRITE = 0
    · have hdelete : s.leave a 2 true true = (.delete, s) := by
        rw [Search.leave, if_pos rfl, if_pos ⟨rfl, rfl⟩, if_neg (not_not.mpr haccess)]
      rw [hdelete] at hnamei
      have hdent : unlinkDent u_base s =
          dp.putDent u_base { dp.dent m with u_ino := 0 } (s.u_offset - 16) s.u_error := by
        rw [unlinkDent, hat.file, hu_dent]
      rw [unlink_delete hnamei, hdent] at hunlink
      generalize hx : dp.putDent u_base { dp.dent m with u_ino := 0 } (s.u_offset - 16) s.u_error =
        x at hunlink
      obtain ⟨herr, hdp⟩ := Option.ite_none_right_eq_some.mp hunlink
      -- the offset is behind the entry that was found
      have hoff : s.u_offset - 16 = BitVec.ofNat 16 (16 * m) := by
        rw [hat.u_offset, mul_add, mul_one, BitVec.ofNat_add]
        exact BitVec.add_sub_cancel _ _
      obtain ⟨hinv', hdir, hentries, hdent⟩ := h.putDent hinv hx hoff hentry.le (by omega) herr
      obtain rfl := Option.some.inj hdp
      exact ⟨m, rfl, hinv', hdir, hentries, hdent⟩
    · -- the directory may not be written
      have hout : (s.leave a 2 true true).1 = .out := by
        rw [Search.leave, if_pos rfl, if_pos ⟨rfl, rfl⟩, if_pos haccess]
      rw [FileDev.unlink, hnamei, Option.bind_some, hout] at hunlink
      cases hunlink

/-- What `namei` finds is what the table has. -/
theorem lookup_eq (h : dp.IsDir) (hsmall : dp.entries < 2048) (a : Rights) {flag : ℕ} {last : Bool}
    (hflag : flag = 0 ∨ last = false) (c : List (BitVec 8)) :
    dp.lookup a flag last c = some ((dp.slots.lookup (gather c)).elim (.error ENOENT) .ok) := by
  unfold FileDev.lookup Slots.lookup
  rw [← firstMatch_eq_index]
  cases hm : dp.firstMatch (gather c) with
  | none =>
    obtain ⟨s, hnamei, -⟩ := namei_missing a flag last h hm hsmall
    have hleave : s.leave a flag last false = (.out, { s with u_error := ENOENT }) := by
      -- a look-up creates nothing
      have hno : ¬ (flag = 1 ∧ last = true) := by
        rintro ⟨rfl, rfl⟩
        rcases hflag with h0 | h0 <;> cases h0
      rw [Search.leave, if_neg Bool.false_ne_true, if_neg hno]
    rw [hnamei, hleave]
    rfl
  | some m =>
    obtain ⟨hentry, hmatched, -⟩ := firstMatch_eq_some.mp hm
    obtain ⟨s, hnamei, -, hu_dent⟩ := namei_found a flag last h hm (hentry.trans hsmall)
    have hleave : s.leave a flag last true = (.inode, s) := by
      -- and deletes nothing
      have hno : ¬ (flag = 2 ∧ last = true) := by
        rintro ⟨rfl, rfl⟩
        rcases hflag with h0 | h0 <;> cases h0
      rw [Search.leave, if_pos rfl, if_neg hno]
    have hne : (dp.dent m).u_ino ≠ 0 := (of_decide_eq_true hmatched).1
    have hslot : dp.slots.slot m = some ((dp.dent m).u_name, (dp.dent m).u_ino) := if_neg hne
    rw [hnamei, hleave, Option.bind_some, hslot, ← hu_dent]
    rfl

/-- What is not the directory's changes nothing of it. -/
theorem node_other {disk : BitVec 16 → Block} (free : List (BitVec 16))
    (hdisk : ∀ r, dp.node r ≠ 0 → disk (dp.node r) = dp.disk (dp.node r)) :
    ({ dp with disk, free } : FileDev).node = dp.node := by
  refine IsTree.unique (isTree _) ?_
  refine dp.isTree.congr fun r q k hr hq => ?_
  simp only [words, hdisk q hq]

/-- Blocks outside the file do not enter its bytes. -/
theorem byte_other {disk : BitVec 16 → Block} (free : List (BitVec 16))
    (hdisk : ∀ r, dp.node r ≠ 0 → disk (dp.node r) = dp.disk (dp.node r)) :
    ({ dp with disk, free } : FileDev).byte = dp.byte := by
  funext pos
  unfold byte
  rw [node_other free hdisk]
  split
  · rfl
  · next hne => exact congrFun (hdisk _ hne) _

end FileDev

end UnixV6
