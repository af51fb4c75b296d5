import UnixV6.Ken.PathWalk

/-!
# `namei` resolves paths (`ken/nami.c`)

For a call that runs alone: `namei` goes where the tree of files says, component by component, and
leaves one inode locked there, or nothing.
-/

open Function

namespace UnixV6

/-! ## Components -/

section Components

open NamiSys (slash)

variable {path : List (BitVec 8)}

@[simp]
theorem components_nil : components [] = [] := rfl

/-- Slashes at the beginning do not count. -/
theorem components_slash {c : BitVec 8} (hc : slash c = true) :
    components (c :: path) = components path := by
  have hsplit := List.splitOnP_append_cons [] path hc
  rw [List.nil_append, List.splitOnP_nil] at hsplit
  simp [components, hsplit]

theorem components_dropWhile : components (path.dropWhile slash) = components path := by
  induction path with
  | nil => rfl
  | cons c path ih =>
    by_cases hc : slash c = true
    · rw [List.dropWhile_cons_of_pos hc, ih, components_slash hc]
    · rw [List.dropWhile_cons_of_neg hc]

/-- A path that does not begin with a slash has a first component. -/
theorem takeWhile_ne_nil (hne : path ≠ []) (hhead : path.head?.any slash = false) :
    (path.takeWhile fun c => !slash c) ≠ [] := by
  cases path with
  | nil => exact absurd rfl hne
  | cons c path =>
    rw [List.head?_cons, Option.any_some] at hhead
    rw [List.takeWhile_cons_of_pos (by rw [hhead]; rfl)]
    exact List.cons_ne_nil c _

/-- A component, up to the slash behind it. -/
theorem components_cons (hne : path ≠ []) (hhead : path.head?.any slash = false) :
    components path = gather (path.takeWhile fun c => !slash c) ::
      components (path.dropWhile fun c => !slash c) := by
  have hno : ∀ c ∈ path.takeWhile fun c => !slash c, slash c = false := fun c hc => by
    simpa using List.mem_takeWhile_imp hc
  have hfirst := takeWhile_ne_nil hne hhead
  have hsplit := List.takeWhile_append_dropWhile (p := fun c => !slash c) (l := path)
  generalize path.takeWhile (fun c => !slash c) = name at *
  cases hrest : path.dropWhile fun c => !slash c with
  | nil =>
    rw [hrest, List.append_nil] at hsplit
    rw [← hsplit]
    simp [components, List.splitOnP_eq_singleton hno, hfirst]
  | cons c rest =>
    have hc : slash c = true := by
      have hhead := List.head?_dropWhile_not (fun c => !slash c) path
      rw [hrest] at hhead
      simpa using hhead
    rw [hrest] at hsplit
    rw [components_slash hc, ← hsplit]
    unfold components
    rw [List.splitOnP_append_cons name rest hc, List.splitOnP_eq_singleton hno]
    simp [hfirst]

/-- After slashes have been skipped none is left. -/
theorem head_dropWhile (path : List (BitVec 8)) :
    (path.dropWhile slash).head?.any slash = false := by
  have hhead := List.head?_dropWhile_not slash path
  cases hrest : (path.dropWhile slash).head? with
  | none => rfl
  | some c =>
    rw [hrest] at hhead
    exact hhead

/-- The rest of a path is shorter. -/
theorem length_rest_lt (hne : path ≠ []) (hhead : path.head?.any slash = false) :
    ((path.dropWhile fun c => !slash c).dropWhile slash).length < path.length := by
  have hfirst := List.length_pos_iff.mpr (takeWhile_ne_nil hne hhead)
  have hsplit := congrArg List.length
    (List.takeWhile_append_dropWhile (p := fun c => !slash c) (l := path))
  rw [List.length_append] at hsplit
  have hslashes := List.length_dropWhile_le slash (path.dropWhile fun c => !slash c)
  omega

/-- What is behind the slashes has components, or is empty. -/
theorem components_eq_nil (hhead : path.head?.any slash = false) :
    components path = [] ↔ path = [] := by
  refine ⟨fun hnil => ?_, fun hnil => by rw [hnil, components_nil]⟩
  by_contra hne
  rw [components_cons hne hhead] at hnil
  cases hnil

end Components

/-! ## Searching a directory -/

section Search

variable {a : Rights} {dp : FileDev} {c : Name} {m : ℕ}

/-- How the search goes out when the component is there. -/
theorem search_found (a : Rights) (flag : ℕ) (last : Bool) (h : dp.IsDir)
    (hm : dp.firstMatch c = some m) (hlt : m < 2048) :
    ∃ t : Search, t.u_error = 0 ∧ t.u_dent = dp.dent m ∧
      t.u_offset = BitVec.ofNat 16 (16 * (m + 1)) ∧
      namei a flag last c dp = some (
        if flag = 2 ∧ last then
          if access a IWRITE ≠ 0 then (.out, { t with u_error := access a IWRITE })
          else (.delete, t)
        else (.inode, t)) := by
  obtain ⟨t, hnamei, hat, hdent⟩ := namei_found a flag last h hm hlt
  exact ⟨t, hat.u_error, hdent, hat.u_offset, hnamei⟩

/-- How the search goes out when the component is not there. -/
theorem search_missing (a : Rights) (flag : ℕ) (last : Bool) (h : dp.IsDir)
    (hm : dp.firstMatch c = none) (hlt : dp.entries < 2048) :
    ∃ r, namei a flag last c dp = some r ∧
      if flag = 1 ∧ last then
        if access a IWRITE ≠ 0 then r.1 = .out ∧ r.2.u_error = access a IWRITE
        else (∃ iupd, r.1 = .create iupd) ∧ r.2.u_error = 0 ∧
          r.2.u_offset = BitVec.ofNat 16 (16 * dp.slots.firstFree)
      else r.1 = .out ∧ r.2.u_error = ENOENT := by
  obtain ⟨t, hnamei, hat⟩ := namei_missing a flag last h hm hlt
  refine ⟨_, hnamei, ?_⟩
  by_cases hcreate : flag = 1 ∧ last
  · obtain ⟨rfl, rfl⟩ := hcreate
    rw [if_pos ⟨rfl, rfl⟩]
    by_cases hgiven : access a IWRITE = 0
    · rw [if_neg (not_not.mpr hgiven)]
      have hfree := (FileDev.leave_create (a := a) hlt hat).resolve_left fun hno => hno.1 hgiven
      obtain ⟨iupd, u_offset, hleave, hoff⟩ := hfree
      rw [hleave]
      exact ⟨⟨iupd, rfl⟩, hat.u_error, hoff⟩
    · rw [if_pos hgiven]
      unfold Search.leave
      rw [if_neg Bool.false_ne_true, if_pos ⟨rfl, rfl⟩, if_pos hgiven]
      exact ⟨rfl, rfl⟩
  · rw [if_neg hcreate]
    unfold Search.leave
    rw [if_neg Bool.false_ne_true, if_neg hcreate]
    exact ⟨rfl, rfl⟩

end Search

namespace NamiSys

variable {s₀ s s' : NamiSys} {p q : InodePtr} {x y : ℤ × ℤ} {fuel : ℕ} {iupd : Bool}

/-! ## The inode that is held -/

/-- The rights of the inode are those of the file. -/
theorem Holds.rights (h : Holds s₀ s p x iupd) :
    s.rights (s.inode p) = s₀.rights (s₀.current x) := by
  obtain ⟨hinode, hdev⟩ := h.current
  unfold NamiSys.rights
  rw [hinode, hdev, h.same.device, h.same.u_uid, h.same.u_gid]
  rfl

/-- The contents of the inode are those of the file. -/
theorem Holds.file (h : Holds s₀ s p x iupd) : s.file (s.inode p) = s₀.file (s₀.current x) := by
  obtain ⟨hinode, hdev⟩ := h.current
  unfold NamiSys.file IgetSys.file onDevice
  dsimp only
  rw [hinode, hdev, h.same.device]
  rfl

/-- Nothing of the user structure matters. -/
theorem Holds.user (h : Holds s₀ s p x iupd) (u_error : ℕ) (u_dbuf : Name) (u_dent : Dent)
    (u_offset : BitVec 16) (u_pdir : Option InodePtr) :
    Holds s₀ { s with u_error, u_dbuf, u_dent, u_offset, u_pdir } p x iupd :=
  ⟨⟨h.same.device, h.same.m_inodp, h.same.m_dev, h.same.u_uid, h.same.u_gid⟩,
    ⟨h.others.used, h.others.free⟩, h.taken⟩

/-- From `out` on nothing is held. -/
theorem Holds.out (h : Holds s₀ s p x false) (h₀ : s₀.Sound fuel)
    (hlinks : s₀.findInode x = none → 0 < (s₀.onDisk x).i_nlink.toInt) (u_error : ℕ) :
    ∃ r, s.out p u_error = some r ∧ Answers s₀ (.error u_error) r := by
  obtain ⟨hrestored, herr⟩ :=
    (h.user u_error s.u_dbuf s.u_dent s.u_offset s.u_pdir).iput h₀ hlinks
  exact ⟨_, rfl, rfl, hrestored, herr⟩

/-- `IUPD` is set, for the entry that is going to be written. -/
theorem Holds.setIupd (h : Holds s₀ s p x false) (iupd : Bool) :
    Holds s₀ (s.setInode p { s.inode p with iupd := (s.inode p).iupd || iupd }) p x iupd := by
  refine ⟨h.same.setInode p _, h.others.write (fun _ => id) rfl, ?_⟩
  simp only [setInode, update_self]
  rcases h.taken with ⟨hfind, hused, himount, hi⟩ | ⟨hfind, hzero, hi⟩
  · refine .inl ⟨hfind, hused, himount, ?_⟩
    rw [hi, Bool.or_false]
  · refine .inr ⟨hfind, hzero, ?_⟩
    rw [hi, Bool.false_or]

/-! ## The walk -/

/-- The tree has what the first entry says that matches. -/
theorem tree_entry (s : NamiSys) (fuel : ℕ) (x : ℤ × ℤ) (c : Name) : (s.tree fuel).entry x c =
    ((s.file (s.current x)).firstMatch c).bind fun m =>
      s.cross fuel (x.1, ((s.file (s.current x)).dent m).u_ino.toInt) := by
  unfold tree inumber
  dsimp only
  rw [Option.bind_map]
  rfl

/-- An entry that matches has an inode number. -/
theorem matched_ne_zero {dp : FileDev} {c : Name} {m : ℕ} (hm : dp.firstMatch c = some m) :
    (dp.dent m).u_ino.toInt ≠ 0 := by
  obtain ⟨-, hmatched, -⟩ := FileDev.firstMatch_eq_some.mp hm
  have hne : (dp.dent m).u_ino ≠ 0 := (of_decide_eq_true hmatched).1
  exact fun hzero => hne (BitVec.toInt_inj.mp hzero)

/-- From the directory to the inode of the entry. -/
theorem Holds.next (h : Holds s₀ s p x false) (h₀ : s₀.Sound fuel)
    (hlinks : s₀.findInode x = none → 0 < (s₀.onDisk x).i_nlink.toInt) (herr : s.u_error = 0)
    {ino : ℤ} (hino : ino ≠ 0) (hcross : s₀.cross fuel (x.1, ino) = some y) :
    ∃ r s', iget fuel (s.iput p) ((s.inode p).i_dev, ino) = some (r, s') ∧
      if (s₀.tree fuel).hold y = 0 then
        ∃ q, r = some q ∧ Holds s₀ s' q y false ∧ s'.u_error = 0
      else r = none ∧ Restored s₀ s' ∧ s'.u_error = (s₀.tree fuel).hold y := by
  obtain ⟨hrestored, herr'⟩ := h.iput h₀ hlinks
  have higet := hrestored.iget h₀ (x := (x.1, ino)) hino hcross
  rwa [herr', herr, ← h.current.2] at higet

/-- The end of a search that has not found the component. -/
theorem Holds.left_missing (h : Holds s₀ s p x false) (h₀ : s₀.Sound fuel)
    (hlinks : s₀.findInode x = none → 0 < (s₀.onDisk x).i_nlink.toInt) {c : Name}
    {next : NamiSys → InodePtr → Option (Option InodePtr × NamiSys)} {create : Prop}
    [Decidable create] {r : Leave × Search}
    (hr : if create then
        if (s₀.tree fuel).write x ≠ 0 then r.1 = .out ∧ r.2.u_error = (s₀.tree fuel).write x
        else (∃ iupd, r.1 = .create iupd) ∧ r.2.u_error = 0 ∧
          r.2.u_offset = BitVec.ofNat 16 (16 * (s₀.file (s₀.current x)).slots.firstFree)
      else r.1 = .out ∧ r.2.u_error = ENOENT) :
    ∃ r', left fuel s p c next r = some r' ∧ Answers s₀
      (if create then
        if (s₀.tree fuel).write x ≠ 0 then .error ((s₀.tree fuel).write x) else .create x c
      else .error ENOENT) r' := by
  obtain ⟨leave, t⟩ := r
  -- give back the directory, whatever the outcome
  have hout := (h.user t.u_error c t.u_dent t.u_offset s.u_pdir).out h₀ hlinks t.u_error
  by_cases hcreate : create
  · rw [if_pos hcreate] at hr
    rw [if_pos hcreate]
    -- a create needs write permission in the directory
    by_cases hgiven : (s₀.tree fuel).write x = 0
    · rw [if_neg (not_not.mpr hgiven)] at hr
      rw [if_neg (not_not.mpr hgiven)]
      obtain ⟨⟨iupd, rfl⟩, hzero, hoff⟩ := hr
      refine ⟨_, rfl, rfl, p, iupd, rfl, ?_, hzero, rfl, hoff⟩
      exact (h.user t.u_error c t.u_dent t.u_offset (some p)).setIupd iupd
    · rw [if_pos hgiven] at hr
      obtain ⟨rfl, herr⟩ := hr
      rw [if_pos hgiven, ← herr]
      exact hout
  -- nothing to create: the name is missing
  · rw [if_neg hcreate] at hr
    obtain ⟨rfl, herr⟩ := hr
    rw [if_neg hcreate, ← herr]
    exact hout

/-- The end of a search that has found the component. -/
theorem Holds.left_found (h : Holds s₀ s p x false) (h₀ : s₀.Sound fuel)
    (hlinks : s₀.findInode x = none → 0 < (s₀.onDisk x).i_nlink.toInt) {c : Name} {m : ℕ}
    (hm : (s₀.file (s₀.current x)).firstMatch c = some m)
    (hy : s₀.cross fuel (x.1, ((s₀.file (s₀.current x)).dent m).u_ino.toInt) = some y)
    {next : NamiSys → InodePtr → Option (Option InodePtr × NamiSys)} {delete : Prop}
    [Decidable delete] {t : Search} (hzero : t.u_error = 0)
    (hdent : t.u_dent = (s₀.file (s₀.current x)).dent m)
    (hoff : t.u_offset = BitVec.ofNat 16 (16 * (m + 1))) {R : Resolved (ℤ × ℤ)}
    (hnext : ∀ s q, Holds s₀ s q y false → s.u_error = 0 →
      ∃ r, next s q = some r ∧ Answers s₀ R r) :
    ∃ r', left fuel s p c next
        (if delete then
          if (s₀.tree fuel).write x ≠ 0 then (.out, { t with u_error := (s₀.tree fuel).write x })
          else (.delete, t)
        else (.inode, t)) = some r' ∧ Answers s₀
      (if delete then
        if (s₀.tree fuel).write x ≠ 0 then .error ((s₀.tree fuel).write x) else .delete x c
      else if (s₀.tree fuel).hold y ≠ 0 then .error ((s₀.tree fuel).hold y)
      else R) r' := by
  have hsame := h.user t.u_error c t.u_dent t.u_offset s.u_pdir
  -- a delete ends here; else the found inode is the next directory
  by_cases hdelete : delete
  · rw [if_pos hdelete, if_pos hdelete]
    -- a delete needs write permission in the directory
    by_cases hgiven : (s₀.tree fuel).write x = 0
    · rw [if_neg (not_not.mpr hgiven), if_neg (not_not.mpr hgiven)]
      exact ⟨_, rfl, p, m, rfl, hsame, hzero, rfl, hm, hdent, hoff⟩
    · rw [if_pos hgiven, if_pos hgiven]
      exact (h.user _ c t.u_dent t.u_offset s.u_pdir).out h₀ hlinks _
  · rw [if_neg hdelete, if_neg hdelete]
    obtain ⟨r, s', higet, hr⟩ := hsame.next h₀ hlinks hzero (matched_ne_zero hm) hy
    rw [← hdent] at higet
    unfold left
    dsimp only at higet ⊢
    rw [higet, Option.bind_some]
    -- the inode must fit into the table
    by_cases hhold : (s₀.tree fuel).hold y = 0
    · rw [if_pos hhold] at hr
      rw [if_neg (not_not.mpr hhold)]
      obtain ⟨q, rfl, hq, herr⟩ := hr
      exact hnext s' q hq herr
    · rw [if_neg hhold] at hr
      rw [if_pos hhold]
      obtain ⟨rfl, hr⟩ := hr
      exact ⟨_, rfl, rfl, hr⟩

/-- From `cloop` on, `namei` does what the tree says. -/
theorem Holds.cloop (h₀ : s₀.Sound fuel) {x₀ : ℤ × ℤ} (hw : s₀.Walkable fuel x₀) (flag : ℕ)
    {turns : ℕ} {path : List (BitVec 8)} (h : Holds s₀ s p x false)
    (hx : (s₀.tree fuel).Leads x₀ x) (herr : s.u_error = 0) (hhead : path.head?.any slash = false)
    (hturns : path.length < turns) : ∃ r, NamiSys.cloop fuel flag turns s p path = some r ∧
      Answers s₀ ((s₀.tree fuel).resolve flag x (components path)) r := by
  induction turns generalizing s p x path with
  | zero => exact absurd hturns (Nat.not_lt_zero _)
  | succ turns ih =>
    unfold NamiSys.cloop
    rw [if_neg (not_not.mpr herr)]
    by_cases hpath : path = []
    · rw [if_pos hpath, hpath, components_nil]
      exact ⟨_, rfl, p, rfl, h, herr⟩
    rw [if_neg hpath, components_cons hpath hhead, ← components_dropWhile]
    -- what is behind the component is shorter, and begins with the next one
    have hrest : ((path.dropWhile fun c => !slash c).dropWhile slash).head?.any slash = false :=
      head_dropWhile _
    have hshort : ((path.dropWhile fun c => !slash c).dropWhile slash).length < turns :=
      Nat.lt_of_lt_of_le (length_rest_lt hpath hhead) (Nat.le_of_lt_succ hturns)
    generalize (path.dropWhile fun c => !slash c).dropWhile slash = rest at hrest hshort
    generalize gather (path.takeWhile fun c => !slash c) = c
    have hlast : components rest = [] ↔ rest.isEmpty = true := by
      rw [components_eq_nil hrest, List.isEmpty_iff]
    have hlinks := hw.links x hx
    have hmode : (s.inode p).i_mode = (s₀.current x).i_mode :=
      congrArg Dinode.i_mode h.current.1
    unfold FileTree.resolve
    simp only [hlast]
    by_cases hdir : (s₀.current x).i_mode &&& IFMT = IFDIR
    swap
    · -- no directory
      have hsearch : (s₀.tree fuel).search x = ENOTDIR := if_pos hdir
      rw [hmode, if_pos hdir, hsearch, if_pos (by decide)]
      exact h.out h₀ hlinks ENOTDIR
    have hsearch : (s₀.tree fuel).search x = access (s₀.rights (s₀.current x)) IEXEC :=
      if_neg (not_not.mpr hdir)
    rw [hmode, if_neg (not_not.mpr hdir), hsearch, h.rights, h.file]
    by_cases hexec : access (s₀.rights (s₀.current x)) IEXEC = 0
    swap
    · -- it may not be searched
      rw [if_pos hexec, if_pos hexec]
      exact h.out h₀ hlinks _
    rw [if_neg (not_not.mpr hexec), if_neg (not_not.mpr hexec)]
    obtain ⟨hisdir, hsmall⟩ := hw.dirs x hx hdir
    have hentry := tree_entry s₀ fuel x c
    cases hm : (s₀.file (s₀.current x)).firstMatch c with
    | none =>
      rw [hm, Option.bind_none] at hentry
      obtain ⟨r, hnamei, hr⟩ :=
        search_missing (s₀.rights (s₀.current x)) flag rest.isEmpty hisdir hm hsmall
      rw [hnamei, Option.bind_some, hentry]
      exact h.left_missing h₀ hlinks hr
    | some m =>
      have hlt := (FileDev.firstMatch_eq_some.mp hm).1.trans hsmall
      obtain ⟨t, hzero, hdent, hoff, hnamei⟩ :=
        search_found (s₀.rights (s₀.current x)) flag rest.isEmpty hisdir hm hlt
      obtain ⟨y, hy⟩ := h₀.mounts (x.1, ((s₀.file (s₀.current x)).dent m).u_ino.toInt)
        (matched_ne_zero hm)
      rw [hm, Option.bind_some, hy] at hentry
      rw [hnamei, Option.bind_some, hentry]
      refine h.left_found h₀ hlinks hm hy hzero hdent hoff fun s q hq herr' => ?_
      exact ih hq (hx.tail ⟨hsearch.trans hexec, c, hentry⟩) herr' hrest hshort

/-- A directory from which a walk may begin: it is in core, and nothing is mounted on it. -/
structure Anchored (s : NamiSys) (fuel : ℕ) (p : InodePtr) (x : ℤ × ℤ) : Prop where
  name : ((s.inode p).i_dev, (s.inode p).i_number) = x
  number : x.2 ≠ 0
  found : s.findInode x = some p
  imount : (s.inode p).imount = false
  below : s.Walkable fuel x

/-- The `iget` of the directory that the path begins in. -/
theorem Anchored.iget (h : Anchored s₀ fuel p x) (h₀ : s₀.Sound fuel) (herr : s₀.u_error = 0) :
    ∃ s, iget fuel s₀ x = some (some p, s) ∧ Holds s₀ s p x false ∧ s.u_error = 0 := by
  have hcross : s₀.cross fuel x = some x := by
    obtain ⟨y, hy⟩ := h₀.mounts x h.number
    cases fuel with
    | zero => cases hy
    | succ n =>
      unfold cross
      rw [h.found]
      dsimp only
      rw [if_neg (by rw [h.imount]; exact Bool.false_ne_true)]
  have hhold : (s₀.tree fuel).hold x = 0 :=
    if_neg fun hfull => Option.some_ne_none p (h.found.symm.trans hfull.1)
  obtain ⟨r, s, higet, hr⟩ := (Restored.refl h₀).iget h₀ h.number hcross
  rw [if_pos hhold] at hr
  obtain ⟨q, rfl, hq, herr'⟩ := hr
  have hqp : q = p := by
    rcases hq.taken with ⟨hfind, -⟩ | ⟨hfind, -⟩
    · exact Option.some.inj (hfind.symm.trans h.found)
    · exact absurd (hfind.symm.trans h.found) (Option.some_ne_none p).symm
  subst hqp
  exact ⟨s, higet, hq, herr'.trans herr⟩

/-- A call of `namei` that runs alone returns what the tree of files has at the end of the path, and
of the inode table it changes only the slot of the inode that it returns. -/
theorem namei_resolves (h₀ : s.Sound fuel) {path : List (BitVec 8)}
    (h : s.Anchored fuel (s.startdir path) x) (herr : s.u_error = 0) (flag : ℕ) :
    ∃ r, s.namei fuel path flag = some r ∧
      Answers s ((s.tree fuel).namei flag x (components path)) r := by
  obtain ⟨s', higet, hholds, herr'⟩ := h.iget h₀ herr
  unfold NamiSys.namei FileTree.namei
  dsimp only
  rw [h.name, higet, Option.bind_some, ← components_dropWhile]
  have hhead := head_dropWhile path
  generalize path.dropWhile slash = rest at hhead
  simp only [components_eq_nil hhead]
  have hlinks : s.findInode x = none → 0 < (s.onDisk x).i_nlink.toInt := fun hnone =>
    absurd (hnone.symm.trans h.found) (Option.some_ne_none _).symm
  by_cases hempty : rest = [] ∧ flag ≠ 0
  · rw [if_pos hempty, if_pos hempty]
    exact hholds.out h₀ hlinks ENOENT
  · rw [if_neg hempty, if_neg hempty]
    exact hholds.cloop h₀ h.below flag .refl herr' hhead (Nat.lt_succ_self _)

/-- A root directory in core, with the file `a` of inode 2 on the disk. -/
def oneFile : NamiSys where
  inode p :=
    if p = 0 then
      { i_mode := 0xc1ff, i_nlink := 2, i_size1 := 16
        i_addr := fun k => if k.val = 0 then 100 else 0
        i_count := 1, i_number := 1 }
    else {}
  device _ :=
    { disk := fun b j =>
        if b = 100 then if j = 0 then 2 else if j = 2 then 0x61 else 0
        else if b = 2 then if j = 33 then 0x81 else if j = 34 then 1 else 0
        else 0
      free := []
      fp := ⟨10, 1000, fun _ => false, fun _ => Block.zero, IgetSys.zero_pad⟩
      s_inode := ⟨[], IgetSys.length_nil_le⟩
      s_ilock := false
      s_ronly := false }
  m_inodp _ := none
  m_dev _ := 0
  rootdir := 0
  u_cdir := 0
  u_uid := 0
  u_gid := 0
  time _ := 0

theorem oneFile_unmounted : ∀ p, (oneFile.inode p).imount = false := by decide

theorem oneFile_sound : oneFile.Sound 1 :=
  ⟨by decide, by decide, fun x _ => ⟨x, cross_of_unmounted oneFile_unmounted 0 x⟩⟩

theorem oneFile_leads (h : (oneFile.tree 1).Leads (0, 1) x) : x = (0, 1) ∨ x = (0, 2) := by
  induction h with
  | refl => exact .inl rfl
  | tail _ hstep ih =>
    obtain ⟨hsearch, c, hentry⟩ := hstep
    rcases ih with rfl | rfl
    · right
      -- there is one entry
      rw [tree_entry] at hentry
      obtain ⟨m, hm, hcross⟩ := Option.bind_eq_some_iff.mp hentry
      have hlt := (FileDev.firstMatch_eq_some.mp hm).1
      have hone : (oneFile.file (oneFile.current (0, 1))).entries = 1 := by decide
      obtain rfl : m = 0 := by omega
      have hino : oneFile.cross 1
          (0, ((oneFile.file (oneFile.current (0, 1))).dent 0).u_ino.toInt) = some (0, 2) := by
        decide
      exact Option.some.inj (hcross.symm.trans hino)
    · exact absurd hsearch (by decide)

/-- The one file is found. -/
theorem namei_resolves_oneFile :
    ∃ r, oneFile.namei 1 [0x2f, 0x61] 0 = some r ∧ Answers oneFile (.found (0, 2)) r := by
  have hbelow : oneFile.Walkable 1 (0, 1) := by
    refine ⟨fun x hx hdir => ?_, fun x hx hnone => ?_⟩
    · rcases oneFile_leads hx with rfl | rfl
      · exact ⟨⟨by decide, by decide, by decide⟩, by decide⟩
      · exact absurd hdir (by decide)
    · rcases oneFile_leads hx with rfl | rfl
      · exact absurd hnone (by decide)
      · decide
  have h : oneFile.Anchored 1 (oneFile.startdir [0x2f, 0x61]) (0, 1) :=
    ⟨rfl, by decide, by decide, by decide, hbelow⟩
  have hfound : (oneFile.tree 1).namei 0 (0, 1) (components [0x2f, 0x61]) = .found (0, 2) := by
    decide
  rw [← hfound]
  exact namei_resolves oneFile_sound h rfl 0

end NamiSys

end UnixV6
