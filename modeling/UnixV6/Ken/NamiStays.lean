import UnixV6.Ken.Nami

/-!
# Searches that stay inside their directory (`ken/nami.c`)

Which searches look at exactly the entries of the directory, in its own blocks: those that do not
come to offset 32768, from where on `ldiv` divides a negative number.
-/

namespace UnixV6

namespace FileDev

variable {s : FileDev} {u_dbuf : Name}

/-- The first entry that matches. -/
def firstMatch (s : FileDev) (u_dbuf : Name) : Option ℕ :=
  (List.range s.entries).find? fun i => (s.dent i).matched u_dbuf

/-- The component is in the directory. -/
def Present (s : FileDev) (u_dbuf : Name) : Prop :=
  ∃ i < s.entries, (s.dent i).matched u_dbuf = true

/-- The scan stops at the first entry that matches. -/
theorem firstMatch_eq_some {m : ℕ} : s.firstMatch u_dbuf = some m ↔ m < s.entries ∧
    (s.dent m).matched u_dbuf = true ∧ ∀ j < m, (s.dent j).matched u_dbuf = false := by
  rw [firstMatch, List.find?_range_eq_some, List.mem_range]
  simp only [Bool.not_eq_true']
  tauto

theorem firstMatch_eq_none : s.firstMatch u_dbuf = none ↔ ¬ s.Present u_dbuf := by
  rw [firstMatch, List.find?_range_eq_none]
  simp [Present]

/-- The search ends with asking for permission to write the directory. -/
def AsksWrite (s : FileDev) (flag : ℕ) (last : Bool) (u_dbuf : Name) : Prop :=
  last = true ∧ (flag = 2 ∧ s.Present u_dbuf ∨ flag = 1 ∧ ¬ s.Present u_dbuf)

end FileDev

/-- The entries are looked at in order until one matches, in the blocks that `bmap` has for them; no
block is allocated; and the errors are those of a component that is not there and of a permission
that is not given. -/
structure Stays (u_dbuf : Name) (dp : FileDev) (x : Leave × Search) : Prop where
  file : x.2.dp = dp
  examined : x.2.examined =
    (List.range ((dp.firstMatch u_dbuf).elim dp.entries (· + 1))).map dp.place
  blocks : ∀ e ∈ x.2.examined, e.2 ≠ 0
  found : ∀ i, dp.firstMatch u_dbuf = some i → x.2.u_dent = dp.dent i ∧
    (x.1 = .inode ∨ x.1 = .delete ∨ x.1 = .out ∧ x.2.u_error = EACCES)
  u_error : x.2.u_error = 0 ∨ x.2.u_error = ENOENT ∨ x.2.u_error = EACCES

/-- Read-only file systems and texts in use have errors of their own. -/
theorem access_cases (a : Rights) :
    a.s_ronly = false ∧ a.itext = false ∧ (access a IWRITE = 0 ∨ access a IWRITE = EACCES) ∨
      ¬ (a.s_ronly = false ∧ a.itext = false) ∧
        (access a IWRITE = EROFS ∨ access a IWRITE = ETXTBSY) := by
  have hne : (IWRITE = IEXEC) = False := by simp [IWRITE, IEXEC]
  unfold access
  simp only [true_and, hne, false_and, if_false]
  cases a.s_ronly with
  | true => exact .inr ⟨fun hz => Bool.noConfusion hz.1, .inl rfl⟩
  | false =>
    cases a.itext with
    | true => exact .inr ⟨fun hz => Bool.noConfusion hz.2, .inr rfl⟩
    | false =>
      refine .inl ⟨rfl, rfl, ?_⟩
      simp only [Bool.false_eq_true, if_false]
      split
      · exact .inl rfl
      · exact ite_eq_or_eq _ _ _

theorem access_ne_ENOENT (a : Rights) : access a IWRITE ≠ ENOENT := by
  intro heq
  have hcases := access_cases a
  simp only [heq, ENOENT, EACCES, EROFS, ETXTBSY] at hcases
  omega

/-- The write check gets as far as the mode bits on a writable file system and no running text. -/
theorem access_write (a : Rights) :
    (access a IWRITE = 0 ∨ access a IWRITE = ENOENT ∨ access a IWRITE = EACCES) ↔
      a.s_ronly = false ∧ a.itext = false := by
  rcases access_cases a with ⟨hronly, htext, hgiven⟩ | ⟨hnot, herr⟩
  · exact ⟨fun _ => ⟨hronly, htext⟩, fun _ => hgiven.imp_right .inr⟩
  · refine ⟨fun hgiven => ?_, fun hz => absurd hz hnot⟩
    simp only [ENOENT, EACCES, EROFS, ETXTBSY] at hgiven herr
    omega

namespace Search

variable {dp : FileDev} {u_dbuf : Name}

/-- The loop ends with the first entry that matches. -/
theorem eloop_found (h : dp.IsDir) {m : ℕ} (hm : dp.firstMatch u_dbuf = some m) (hlt : m < 2048) :
    ∃ s, eloop u_dbuf ((start dp).u_count.toNat + 1) (start dp) = some (true, s) ∧ At dp (m + 1) s ∧
      s.u_dent = dp.dent m := by
  obtain ⟨hentry, hmatched, hno⟩ := FileDev.firstMatch_eq_some.mp hm
  obtain ⟨s, hat, hrun⟩ := (at_start dp).walk h u_dbuf (k := m) (by omega) (by omega)
    fun j _ hj => hno j (by omega)
  rw [zero_add] at hat
  obtain ⟨hnext, hdent⟩ := hat.turn hlt (h.allocated m hentry)
  have hcount := start_u_count h
  obtain ⟨f, hf⟩ : ∃ f, (start dp).u_count.toNat + 1 = f + 1 + m :=
    ⟨(start dp).u_count.toNat - m, by split at hcount <;> omega⟩
  refine ⟨s.fetch.take, ?_, hnext, hdent⟩
  rw [hf, hrun]
  show (if s.u_count = 0 then _ else _) = _
  rw [if_neg (hat.u_count_ne h hlt hentry)]
  show (if s.fetch.take.u_dent.matched u_dbuf then _ else _) = _
  rw [hdent, hmatched]
  rfl

/-- The loop ends with the end of the directory. -/
theorem eloop_missing (h : dp.IsDir) (hm : ¬ dp.Present u_dbuf) (hlt : dp.entries < 2048) :
    ∃ s, eloop u_dbuf ((start dp).u_count.toNat + 1) (start dp) = some (false, s) ∧
      At dp dp.entries s := by
  obtain ⟨s, hat, hrun⟩ := (at_start dp).walk h u_dbuf (k := dp.entries) (by omega)
    (by omega) fun j _ hj => Bool.eq_false_iff.mpr fun hmatched => hm ⟨j, by omega, hmatched⟩
  rw [zero_add] at hat
  have hcount := start_u_count h
  rw [if_pos hlt] at hcount
  have h0 : s.u_count = 0 := by
    rw [hat.u_count]
    apply BitVec.eq_of_toNat_eq
    rw [BitVec.toNat_sub, hcount, BitVec.toNat_ofNat]
    show _ = 0
    omega
  refine ⟨s, ?_, hat⟩
  rw [hcount, add_comm, hrun]
  show (if s.u_count = 0 then _ else _) = _
  rw [if_pos h0]

/-- From offset 32768 on the number of the block is negative, and block 0 is read. -/
theorem examined_far (h : dp.IsDir) (hge : 2048 ≤ dp.entries)
    (hno : ∀ j < 2048, (dp.dent j).matched u_dbuf = false) {n : ℕ} {r : Bool × Search}
    (hr : eloop u_dbuf n (start dp) = some r) (hn : 2048 < n) : (0x8000, 0) ∈ r.2.examined := by
  obtain ⟨s, hat, hrun⟩ := (at_start dp).walk h u_dbuf (k := 2048) (by omega) (by omega)
    fun j _ hj => hno j (by omega)
  obtain ⟨f, rfl⟩ : ∃ f, n = f + 1 + 2048 := ⟨n - 2049, by omega⟩
  rw [hrun] at hr
  have hoff : s.u_offset = 0x8000 := hat.u_offset
  -- the count has not run out after 2048 entries
  have hcount : s.u_count ≠ 0 := by
    have hstart := start_u_count h
    rw [if_neg (by omega)] at hstart
    have hsize := h.i_size0
    have hentries := h.i_size
    intro h0
    rw [hat.u_count] at h0
    have hnat := congrArg BitVec.toNat h0
    rw [BitVec.toNat_sub, hstart, BitVec.toNat_ofNat] at hnat
    change _ = 0 at hnat
    omega
  -- the signed offset has a negative block number, for which `bmap` gives 0
  have hfetch : s.fetch.u_offset = 0x8000 ∧ s.fetch.bp = 0 := by
    have hand : (0x8000 : BitVec 16) &&& 0x1ff = 0 := by decide
    have hdiv : ((0x8000 : BitVec 16).sdiv 512).msb = true := by decide
    simp only [Search.fetch, hoff, hand, if_true, FileDev.bmapError, hdiv, and_self]
  have hmem : (0x8000, 0) ∈ s.fetch.take.examined := by
    show _ ∈ s.fetch.examined ++ [(s.fetch.u_offset, s.fetch.bp)]
    rw [hfetch.1, hfetch.2]
    exact List.mem_append_right _ List.mem_cons_self
  have hr' : (if s.u_count = 0 then some (false, s)
      else if s.fetch.take.u_dent.matched u_dbuf then some (true, s.fetch.take)
      else eloop u_dbuf f s.fetch.take) = some r := hr
  rw [if_neg hcount] at hr'
  split at hr'
  · cases hr'
    exact hmem
  · exact (examined_kept hr').subset hmem

end Search

section Namei

variable {a : Rights} {flag : ℕ} {last : Bool} {u_dbuf : Name} {dp : FileDev} {s : Search}

/-- The search of a component that is found. -/
theorem namei_found (a : Rights) (flag : ℕ) (last : Bool) (h : dp.IsDir) {m : ℕ}
    (hm : dp.firstMatch u_dbuf = some m) (hlt : m < 2048) :
    ∃ s : Search, namei a flag last u_dbuf dp = some (s.leave a flag last true) ∧
      s.At dp (m + 1) ∧ s.u_dent = dp.dent m := by
  obtain ⟨s, hloop, hat, hdent⟩ := Search.eloop_found h hm hlt
  exact ⟨s, by rw [namei, hloop]; rfl, hat, hdent⟩

/-- The search of a component that is not found. -/
theorem namei_missing (a : Rights) (flag : ℕ) (last : Bool) (h : dp.IsDir)
    (hm : dp.firstMatch u_dbuf = none) (hlt : dp.entries < 2048) :
    ∃ s : Search, namei a flag last u_dbuf dp = some (s.leave a flag last false) ∧
      s.At dp dp.entries := by
  obtain ⟨s, hloop, hat⟩ := Search.eloop_missing h (FileDev.firstMatch_eq_none.mp hm) hlt
  exact ⟨s, by rw [namei, hloop]; rfl, hat⟩

/-- The error when the loop is left. -/
theorem Search.leave_u_error (a : Rights) (flag : ℕ) (last found : Bool) (h0 : s.u_error = 0) :
    (s.leave a flag last found).2.u_error =
      if last = true ∧ flag = (if found then 2 else 1) then access a IWRITE
      else if found then 0 else ENOENT := by
  by_cases hgiven : access a IWRITE = 0 <;> cases found <;> cases last <;>
    simp [Search.leave, hgiven, h0, apply_ite Prod.snd, apply_ite Search.u_error]

/-- Where the search goes when an entry has matched. -/
theorem Search.leave_found (s : Search) : (s.leave a flag last true).1 =
    if last = true ∧ flag = 2 then if access a IWRITE = 0 then .delete else .out else .inode := by
  by_cases hgiven : access a IWRITE = 0 <;> cases last <;>
    simp [Search.leave, hgiven, apply_ite Prod.fst]

/-- Leaving the loop reads no more of the directory. -/
theorem Search.leave_frame (s : Search) (a : Rights) (flag : ℕ) (last found : Bool) :
    (s.leave a flag last found).2.dp = s.dp ∧
      (s.leave a flag last found).2.examined = s.examined ∧
      (s.leave a flag last found).2.u_dent = s.u_dent := by
  unfold Search.leave
  split_ifs <;> exact ⟨rfl, rfl, rfl⟩

/-- Write permission is asked for at the last component of a create or a delete. -/
theorem asksWrite_iff (flag : ℕ) (last : Bool) {found : Bool}
    (hfound : (dp.firstMatch u_dbuf).isSome = found) :
    dp.AsksWrite flag last u_dbuf ↔ last = true ∧ flag = if found then 2 else 1 := by
  cases hm : dp.firstMatch u_dbuf with
  | none =>
    rw [hm] at hfound
    have hmissing := FileDev.firstMatch_eq_none.mp hm
    simp [FileDev.AsksWrite, hmissing, ← hfound]
  | some m =>
    rw [hm] at hfound
    have hpresent : dp.Present u_dbuf := by
      by_contra hno
      rw [FileDev.firstMatch_eq_none.mpr hno] at hm
      cases hm
    simp [FileDev.AsksWrite, hpresent, ← hfound]

/-- What is left is the permission, when the loop has looked at the right entries. -/
theorem stays_leave (h : dp.IsDir) {found : Bool} {k : ℕ} (hat : s.At dp k)
    (hk : (dp.firstMatch u_dbuf).elim dp.entries (· + 1) = k) (hle : k ≤ dp.entries)
    (hfound : (dp.firstMatch u_dbuf).isSome = found)
    (hdent : ∀ m, dp.firstMatch u_dbuf = some m → s.u_dent = dp.dent m) :
    Stays u_dbuf dp (s.leave a flag last found) ↔
      (dp.AsksWrite flag last u_dbuf → a.s_ronly = false ∧ a.itext = false) := by
  obtain ⟨hfile, hexamined, hu_dent⟩ := s.leave_frame a flag last found
  have herr := Search.leave_u_error a flag last found hat.u_error
  have hasks := asksWrite_iff flag last hfound
  constructor
  · intro hstays hwrite
    -- an error of the access is none of those of a search
    have hlast := hstays.u_error
    rw [herr, if_pos (hasks.mp hwrite)] at hlast
    exact (access_write a).mp hlast
  · intro hgiven
    have herr' : (s.leave a flag last found).2.u_error = 0 ∨
        (s.leave a flag last found).2.u_error = ENOENT ∨
        (s.leave a flag last found).2.u_error = EACCES := by
      rw [herr]
      by_cases hwrite : last = true ∧ flag = if found then 2 else 1
      · rw [if_pos hwrite]
        exact (access_write a).mpr (hgiven (hasks.mpr hwrite))
      · rw [if_neg hwrite]
        exact (ite_eq_or_eq _ _ _).imp_right .inl
    refine ⟨hfile.trans hat.file, ?_, ?_, fun m hm => ⟨hu_dent.trans (hdent m hm), ?_⟩, herr'⟩
    · rw [hexamined, hat.examined, hk]
    · rw [hexamined, hat.examined]
      intro e he
      obtain ⟨i, hi, rfl⟩ := List.mem_map.mp he
      exact h.allocated i ((List.mem_range.mp hi).trans_le hle)
    · obtain rfl : true = found := by rw [← hfound, hm, Option.isSome_some]
      rw [Search.leave_found]
      by_cases hwrite : last = true ∧ flag = 2
      · rw [if_pos hwrite]
        by_cases hrefused : access a IWRITE = 0
        · rw [if_pos hrefused]
          exact .inr (.inl rfl)
        · have hcases := (access_write a).mpr (hgiven (hasks.mpr hwrite))
          have hlast : (s.leave a flag last true).2.u_error = access a IWRITE := by
            rw [herr]
            exact if_pos hwrite
          rw [if_neg hrefused, hlast]
          exact .inr (.inr ⟨rfl, (hcases.resolve_left hrefused).resolve_left (access_ne_ENOENT a)⟩)
      · rw [if_neg hwrite]
        exact .inl rfl

/-- A search that comes to offset 32768 reads block 0. -/
theorem not_stays_of_far (h : dp.IsDir) (hge : 2048 ≤ dp.entries)
    (hno : ∀ j < 2048, (dp.dent j).matched u_dbuf = false) {x : Leave × Search}
    (hx : namei a flag last u_dbuf dp = some x) : ¬ Stays u_dbuf dp x := by
  intro hstays
  obtain ⟨r, hr, rfl⟩ := Option.map_eq_some_iff.mp hx
  have hcount := Search.start_u_count h
  rw [if_neg (by omega)] at hcount
  have hmem := Search.examined_far h hge hno hr (by omega)
  rw [← (r.2.leave_frame a flag last r.1).2.1] at hmem
  exact hstays.blocks _ hmem rfl

/-- A search stays inside its directory if that is small enough for the number of an entry times its
size to be a positive number, or has the component below that, and if writing is not asked for on a
read-only file system or of a text in use. -/
theorem stays_iff (a : Rights) (flag : ℕ) (last : Bool) (u_dbuf : Name) (h : dp.IsDir) :
    (∃ x, namei a flag last u_dbuf dp = some x ∧ Stays u_dbuf dp x) ↔
      (dp.entries < 2048 ∨ ∃ i < 2048, i < dp.entries ∧ (dp.dent i).matched u_dbuf = true) ∧
        (dp.AsksWrite flag last u_dbuf → a.s_ronly = false ∧ a.itext = false) := by
  by_cases hnear : dp.entries < 2048 ∨ ∃ i < 2048, i < dp.entries ∧ (dp.dent i).matched u_dbuf
  · rw [and_iff_right hnear]
    -- the loop ends with the first entry that matches, or with the directory
    have hloop : ∃ (s : Search) (k : ℕ), namei a flag last u_dbuf dp =
          some (s.leave a flag last (dp.firstMatch u_dbuf).isSome) ∧ s.At dp k ∧
        (dp.firstMatch u_dbuf).elim dp.entries (· + 1) = k ∧ k ≤ dp.entries ∧
        ∀ m, dp.firstMatch u_dbuf = some m → s.u_dent = dp.dent m := by
      cases hm : dp.firstMatch u_dbuf with
      | none =>
        have hmissing := FileDev.firstMatch_eq_none.mp hm
        have hlt := hnear.resolve_right fun ⟨i, _, hi⟩ => hmissing ⟨i, hi⟩
        obtain ⟨s, hnamei, hat⟩ := namei_missing a flag last h hm hlt
        exact ⟨s, dp.entries, hnamei, hat, rfl, le_rfl, fun m hm' => nomatch hm'⟩
      | some m =>
        obtain ⟨hentry, -, hfirst⟩ := FileDev.firstMatch_eq_some.mp hm
        have hlt : m < 2048 := by
          by_contra hge
          rcases hnear with hlt | ⟨i, hi, -, hmatched⟩
          · omega
          · exact absurd (hfirst i (by omega)) (by rw [hmatched]; decide)
        obtain ⟨s, hnamei, hat, hdent⟩ := namei_found a flag last h hm hlt
        refine ⟨s, m + 1, hnamei, hat, rfl, hentry, fun m' hm' => ?_⟩
        rw [← Option.some.inj hm', hdent]
    obtain ⟨s, k, hnamei, hat, hk, hle, hdent⟩ := hloop
    rw [hnamei]
    simp only [Option.some.injEq, exists_eq_left']
    exact stays_leave h hat hk hle rfl hdent
  · rw [not_or, not_lt] at hnear
    refine ⟨fun ⟨x, hx, hstays⟩ => absurd hstays ?_, fun ⟨hsmall, _⟩ => ?_⟩
    · refine not_stays_of_far h hnear.1 (fun j hj => ?_) hx
      refine Bool.eq_false_iff.mpr fun hmatched => hnear.2 ⟨j, hj, hj.trans_le hnear.1, hmatched⟩
    · exact absurd hsmall (not_or.mpr ⟨not_lt.mpr hnear.1, hnear.2⟩)

/-- Forty free slots, in two blocks. -/
def twoBlocks : FileDev where
  ilarg := false
  i_addr i := BitVec.ofNat 16 (100 + i)
  i_size := 640
  disk _ := Block.zero
  free := []

/-- The super-user, on a file system that can be written. -/
def superUser : Rights := ⟨false, false, 0x41ff, 0, 0, 0, 0⟩

/-- A directory of two blocks is searched in full and `namei` stays inside it. -/
theorem stays_iff_twoBlocks :
    ∃ x, namei superUser 1 true (gather [0x61, 0x62]) twoBlocks = some x ∧
      Stays (gather [0x61, 0x62]) twoBlocks x := by
  have hdir : twoBlocks.IsDir := by
    refine ⟨by decide, by decide, ?_⟩
    show ∀ i, i < 40 → twoBlocks.node (.data (i / 32)) ≠ 0
    decide
  exact (stays_iff superUser 1 true (gather [0x61, 0x62]) hdir).mpr
    ⟨.inl (by decide), fun _ => ⟨rfl, rfl⟩⟩

/-- A directory of 2049 entries; only the last one is in use. -/
def longDir : FileDev where
  ilarg := true
  i_addr i := if i = 0 then 1 else 0
  i_size := 32784
  disk b :=
    if b = 1 then fun j => if j % 2 = 0 then BitVec.ofNat 8 (2 + j / 2) else 0
    else if b = 66 then fun j => if j = 0 then 5 else if j = 1 then 0 else 0x61
    else Block.zero
  free := []

/-- The long directory's blocks are consecutive from 2. -/
theorem longDir_node {bn : ℕ} (hbn : bn ≤ 64) :
    longDir.node (.data bn) = BitVec.ofNat 16 (2 + bn) := by
  have hall : ∀ bn < 65, longDir.node (.data bn) = BitVec.ofNat 16 (2 + bn) := by decide
  exact hall bn (Nat.lt_succ_of_le hbn)

theorem longDir_isDir : longDir.IsDir := by
  refine ⟨by decide, by decide, fun i hi => ?_⟩
  have hi' : i < 2049 := hi
  rw [longDir_node (by omega)]
  intro h0
  have hnat := congrArg BitVec.toNat h0
  rw [BitVec.toNat_ofNat] at hnat
  change _ = 0 at hnat
  omega

/-- Its first 2048 slots are free. -/
theorem longDir_free {j : ℕ} (hj : j < 2048) (u_dbuf : Name) :
    (longDir.dent j).matched u_dbuf = false := by
  have hblock := longDir_isDir.allocated j (by show j < 2049; omega)
  have hzero : longDir.disk (longDir.node (.data (j / 32))) = Block.zero := by
    rw [longDir_node (by omega)]
    have hne : ∀ b, 2 ≤ b → b < 66 → longDir.disk (BitVec.ofNat 16 b) = Block.zero := by
      intro b hb hlt
      have h1 : BitVec.ofNat 16 b ≠ 1 := by
        intro heq
        have hnat := congrArg BitVec.toNat heq
        rw [BitVec.toNat_ofNat] at hnat
        change _ = 1 at hnat
        omega
      have h66 : BitVec.ofNat 16 b ≠ 66 := by
        intro heq
        have hnat := congrArg BitVec.toNat heq
        rw [BitVec.toNat_ofNat] at hnat
        change _ = 66 at hnat
        omega
      simp only [longDir, if_neg h1, if_neg h66]
    exact hne _ (by omega) (by omega)
  rw [← FileDev.dent_eq hblock, hzero]
  simp [Dent.matched, Dent.ofBytes, Block.zero]

/-- The name of the last entry is not found: block 0 is read for it. -/
theorem not_stays_longDir : ¬ ∀ (a : Rights) (flag : ℕ) (last : Bool) (u_dbuf : Name)
    (dp : FileDev), dp.IsDir → ∃ x, namei a flag last u_dbuf dp = some x ∧ Stays u_dbuf dp x := by
  intro hall
  obtain ⟨x, hx, hstays⟩ := hall superUser 0 true (fun _ => 0x61) longDir longDir_isDir
  exact not_stays_of_far longDir_isDir (by decide) (fun j hj => longDir_free hj _) hx hstays

end Namei

end UnixV6
