import UnixV6.Ken.Directory
import UnixV6.Lib.Run

/-!
# Directories as finite maps

Entries of one directory are made, removed and looked up, one call after another. What happens to
other files of the device in between is the environment's choice.
-/

open Function

namespace UnixV6

/-- A call on the directory, or what happens elsewhere on the device. -/
inductive DirAct
  | link (a : Rights) (component : List (BitVec 8)) (i_number : BitVec 16)
  | unlink (a : Rights) (component : List (BitVec 8))
  | other (disk : BitVec 16 → Block) (free : List (BitVec 16))

/-- A directory, and the calls on it so far. -/
structure DirSys where
  dp : FileDev
  history : List DirAct

/-- The directory after a call that succeeds. -/
def DirSys.step (u_base : BitVec 16) (x : DirSys) (act : DirAct) : Option DirSys :=
  let dp : Option FileDev := match act with
    | .link a component i_number => x.dp.link u_base a component i_number
    | .unlink a component => x.dp.unlink u_base a component
    | .other disk free => some { x.dp with disk, free }
  dp.map fun dp => ⟨dp, x.history ++ [act]⟩

/-- The directory is below 32768 bytes, and no inode has the number 0. Elsewhere on the device, no
block of the directory is written or freed. -/
def DirSys.Ok (x : DirSys) (act : DirAct) : Prop :=
  x.dp.i_size.toNat < 32768 ∧ match act with
    | .link _ component i_number => IsComponent component ∧ i_number ≠ 0
    | .unlink _ component => IsComponent component
    | .other disk free => FileDev.Inv { x.dp with disk, free } ∧
        ∀ r, x.dp.node r ≠ 0 → disk (x.dp.node r) = x.dp.disk (x.dp.node r)

/-- What a call means for a name: names that agree with it in the first 14 bytes are the same. -/
def DirAct.effect (component : List (BitVec 8)) (r : Option (BitVec 16)) :
    DirAct → Option (BitVec 16)
  | .link _ c i_number => if c.take 14 = component.take 14 then some i_number else r
  | .unlink _ c => if c.take 14 = component.take 14 then none else r
  | .other _ _ => r

/-- The inode of the last insertion of a name that was not unlinked since. -/
def lastLink (component : List (BitVec 8)) (r : Option (BitVec 16)) (history : List DirAct) :
    Option (BitVec 16) :=
  history.foldl (DirAct.effect component) r

/-! ## Runs -/

/-- Storing an entry puts it into its slot. -/
theorem FileDev.slots_put {dp dp' : FileDev} {i : ℕ} {d : Dent}
    (hentries : dp'.entries = max dp.entries (i + 1)) (hdent : dp'.dent = update dp.dent i d) :
    dp'.slots = dp.slots.put i d.slot := by
  simp only [FileDev.slots, Slots.put, hentries, hdent, Slots.mk.injEq, true_and]
  funext j
  rcases eq_or_ne j i with rfl | hne
  · rw [update_self, update_self]
  · rw [update_of_ne hne, update_of_ne hne]

namespace DirSys

variable {u_base : BitVec 16} {x x' : DirSys} {act : DirAct} {m₀ : Name → Option (BitVec 16)}

/-- The last link of a name after one more call. -/
theorem lastLink_append (c : List (BitVec 8)) (r : Option (BitVec 16)) (history : List DirAct)
    (act : DirAct) :
    lastLink c r (history ++ [act]) = act.effect c (lastLink c r history) := by
  rw [lastLink, List.foldl_append]
  rfl

/-- The directory is the map that the calls have made of the map `m₀`. -/
structure IsMap (m₀ : Name → Option (BitVec 16)) (x : DirSys) : Prop where
  dir : Directory x.dp
  lookup : ∀ c, IsComponent c → x.dp.slots.lookup (gather c) = lastLink c (m₀ (gather c)) x.history

theorem entries_lt {dp : FileDev} (h : dp.i_size.toNat < 32768) : dp.entries < 2048 := by
  unfold FileDev.entries
  omega

/-- `link` keeps the map. -/
theorem IsMap.link (h : x.IsMap m₀) {a : Rights} {c : List (BitVec 8)} {i_number : BitVec 16}
    {dp : FileDev} (hsize : x.dp.i_size.toNat < 32768) (hc : IsComponent c) (hne : i_number ≠ 0)
    (hlink : x.dp.link u_base a c i_number = some dp) :
    IsMap m₀ ⟨dp, x.history ++ [.link a c i_number]⟩ := by
  obtain ⟨hindex, hinv, hdir, hentries, hdent⟩ := FileDev.link_eq_some h.dir.isDir h.dir.inv
    (entries_lt hsize) hlink
  have hfresh : x.dp.slots.lookup (gather c) = none := by
    rw [Slots.lookup, hindex, Option.bind_none]
  have hslots := FileDev.slots_put hentries hdent
  rw [Dent.slot, if_neg hne] at hslots
  refine ⟨⟨hinv, hdir, ?_⟩, fun c' hc' => ?_⟩
  · rw [hslots]
    exact h.dir.distinct.insert hfresh i_number
  · show dp.slots.lookup (gather c') = _
    rw [lastLink_append, hslots, Slots.lookup_insert h.dir.distinct hfresh, DirAct.effect]
    by_cases hsame : gather c' = gather c
    · rw [hsame, update_self, if_pos ((gather_eq_iff hc hc').mp hsame.symm)]
    · rw [update_of_ne hsame, h.lookup c' hc',
        if_neg fun htake => hsame ((gather_eq_iff hc hc').mpr htake).symm]

/-- `unlink` keeps the map. -/
theorem IsMap.unlink (h : x.IsMap m₀) {a : Rights} {c : List (BitVec 8)} {dp : FileDev}
    (hsize : x.dp.i_size.toNat < 32768) (hc : IsComponent c)
    (hunlink : x.dp.unlink u_base a c = some dp) :
    IsMap m₀ ⟨dp, x.history ++ [.unlink a c]⟩ := by
  obtain ⟨m, hindex, hinv, hdir, hentries, hdent⟩ := FileDev.unlink_eq_some h.dir.isDir h.dir.inv
    (entries_lt hsize) hunlink
  have hslots := FileDev.slots_put hentries hdent
  rw [Dent.slot, if_pos rfl] at hslots
  refine ⟨⟨hinv, hdir, ?_⟩, fun c' hc' => ?_⟩
  · rw [hslots]
    exact h.dir.distinct.erase (Slots.index_eq_some hindex).1.le
  · show dp.slots.lookup (gather c') = _
    rw [lastLink_append, hslots, Slots.lookup_erase h.dir.distinct hindex, DirAct.effect]
    by_cases hsame : gather c' = gather c
    · rw [hsame, update_self, if_pos ((gather_eq_iff hc hc').mp hsame.symm)]
    · rw [update_of_ne hsame, h.lookup c' hc',
        if_neg fun htake => hsame ((gather_eq_iff hc hc').mpr htake).symm]

/-- Other files' blocks may change under the map. -/
theorem IsMap.other (h : x.IsMap m₀) {disk : BitVec 16 → Block} {free : List (BitVec 16)}
    (hinv : FileDev.Inv { x.dp with disk, free })
    (hdisk : ∀ r, x.dp.node r ≠ 0 → disk (x.dp.node r) = x.dp.disk (x.dp.node r)) :
    IsMap m₀ ⟨{ x.dp with disk, free }, x.history ++ [.other disk free]⟩ := by
  have hnode := FileDev.node_other free hdisk
  have hslots : ({ x.dp with disk, free } : FileDev).slots = x.dp.slots := by
    simp only [FileDev.slots, FileDev.dent, FileDev.byte_other free hdisk]
    rfl
  refine ⟨⟨hinv, ⟨h.dir.isDir.i_size0, h.dir.isDir.dvd, fun i hi => ?_⟩, ?_⟩, fun c hc => ?_⟩
  · rw [hnode]
    exact h.dir.isDir.allocated i hi
  · show ({ x.dp with disk, free } : FileDev).slots.Distinct
    rw [hslots]
    exact h.dir.distinct
  · show ({ x.dp with disk, free } : FileDev).slots.lookup (gather c) = _
    rw [lastLink_append, hslots]
    exact h.lookup c hc

/-- What a call preserves. -/
theorem IsMap.step (h : x.IsMap m₀) (hok : x.Ok act) (hs : x.step u_base act = some x') :
    x'.IsMap m₀ := by
  obtain ⟨hsize, hok⟩ := hok
  obtain ⟨dp, hdp, rfl⟩ := Option.map_eq_some_iff.mp hs
  cases act with
  | link a c i_number => exact h.link hsize hok.1 hok.2 hdp
  | unlink a c => exact h.unlink hsize hok hdp
  | other disk free =>
    cases hdp
    exact h.other hok.1 hok.2

/-- A directory as a finite map, whose calls so far have been made on the map `m₀`: a lookup finds
what was inserted last and not unlinked since, no name is in two entries, and an insertion writes
the first free slot, or a new one at the end, and no other. -/
structure FiniteMap (u_base : BitVec 16) (m₀ : Name → Option (BitVec 16)) (x : DirSys) : Prop where
  lookup : ∀ (a : Rights) (flag : ℕ) (last : Bool) (c : List (BitVec 8)), flag = 0 ∨ last = false →
    IsComponent c → x.dp.lookup a flag last c =
      some ((lastLink c (m₀ (gather c)) x.history).elim (.error ENOENT) .ok)
  distinct : ∀ i j, i < x.dp.entries → j < x.dp.entries → (x.dp.dent i).u_ino ≠ 0 →
    (x.dp.dent j).u_ino ≠ 0 → (x.dp.dent i).u_name = (x.dp.dent j).u_name → i = j
  insertion : ∀ (a : Rights) (c : List (BitVec 8)) (i_number : BitVec 16) (dp : FileDev),
    x.dp.link u_base a c i_number = some dp →
    ∃ i, (∀ j < i, (x.dp.dent j).u_ino ≠ 0) ∧
      (i < x.dp.entries ∧ (x.dp.dent i).u_ino = 0 ∧ dp.entries = x.dp.entries ∨
        i = x.dp.entries ∧ dp.entries = x.dp.entries + 1) ∧
      dp.dent = update x.dp.dent i ⟨i_number, gather c⟩

/-- After any run of links and unlinks the directory is the finite map of its history. -/
theorem finiteMap_of_reachable {dp₀ : FileDev} (h₀ : Directory dp₀)
    (h : Reachable (step u_base) Ok ⟨dp₀, []⟩ x) (hsize : x.dp.i_size.toNat < 32768) :
    x.FiniteMap u_base dp₀.slots.lookup := by
  have hmap : x.IsMap dp₀.slots.lookup := h.invariant (P := IsMap dp₀.slots.lookup)
    ⟨h₀, fun _ _ => rfl⟩ fun _ _ _ hs hok hstep => hs.step hok hstep
  have hsmall := entries_lt hsize
  refine ⟨fun a flag last c hflag hc => ?_, fun i j hi hj hlive hlive' hname => ?_,
    fun a c i_number dp hlink => ?_⟩
  · rw [FileDev.lookup_eq hmap.dir.isDir hsmall a hflag, hmap.lookup c hc]
  · have hslot : x.dp.slots.slot j = some ((x.dp.dent i).u_name, (x.dp.dent j).u_ino) := by
      rw [hname]
      exact if_neg hlive'
    exact hmap.dir.distinct i j _ _ _ hi hj (if_neg hlive) hslot
  · obtain ⟨-, -, -, hentries, hdent⟩ := FileDev.link_eq_some hmap.dir.isDir hmap.dir.inv hsmall
      hlink
    have hle : x.dp.slots.firstFree ≤ x.dp.entries := x.dp.slots.firstFree_le
    refine ⟨x.dp.slots.firstFree, fun j hj h0 => ?_, ?_, hdent⟩
    · exact Slots.slot_ne_none hj (if_pos h0)
    · rcases hle.lt_or_eq with hlt | heq
      · refine .inl ⟨hlt, ?_, by omega⟩
        have hnone := Slots.slot_firstFree hlt
        by_contra hne
        change (x.dp.dent _).slot = none at hnone
        rw [Dent.slot, if_neg hne] at hnone
        cases hnone
      · exact .inr ⟨heq, by omega⟩

/-- A new directory. -/
theorem directory_empty {disk : BitVec 16 → Block} {free : List (BitVec 16)} (hnodup : free.Nodup)
    (hzero : 0 ∉ free) : Directory (FileDev.empty disk free) := by
  have hsize : (FileDev.empty disk free).i_size.toNat = 0 := rfl
  have hentries : (FileDev.empty disk free).entries = 0 := by
    rw [FileDev.entries, hsize]
  refine ⟨(FileDev.refines_empty hnodup hzero).inv, ⟨?_, ?_, fun i hi => ?_⟩,
    fun i j k v w hi => ?_⟩
  · rw [hsize]
    decide
  · rw [hsize]
    exact dvd_zero 16
  · rw [hentries] at hi
    exact absurd hi (Nat.not_lt_zero i)
  · change i < (FileDev.empty disk free).entries at hi
    rw [hentries] at hi
    exact absurd hi (Nat.not_lt_zero i)

/-- Two names, of which the second is cut off; the first is unlinked, and a third one made. -/
def fourCalls : List DirAct :=
  [.link superUser [0x61] 5, .link superUser (List.replicate 20 0x62) 6, .unlink superUser [0x61],
    .link superUser [0x63, 0x64] 7]

/-- `Ok`, of calls only. -/
def check (x : DirSys) (act : DirAct) : Bool :=
  x.dp.i_size.toNat < 32768 && match act with
    | .link _ c i_number => c.all (fun b => b ≠ 0 ∧ b ≠ 0x2f) && i_number ≠ 0
    | .unlink _ c => c.all (fun b => b ≠ 0 ∧ b ≠ 0x2f)
    | .other _ _ => false

theorem ok_of_check (x : DirSys) (act : DirAct) (h : x.check act = true) : x.Ok act := by
  obtain ⟨hsize, hact⟩ := Bool.and_eq_true_iff.mp h
  refine ⟨of_decide_eq_true hsize, ?_⟩
  have hall : ∀ c : List (BitVec 8), c.all (fun b => b ≠ 0 ∧ b ≠ 0x2f) = true → IsComponent c :=
    fun c hc b hb => of_decide_eq_true (List.all_eq_true.mp hc b hb)
  cases act with
  | link a c i_number =>
    obtain ⟨hc, hne⟩ := Bool.and_eq_true_iff.mp hact
    exact ⟨hall c hc, of_decide_eq_true hne⟩
  | unlink a c => exact hall c hact
  | other disk free => cases hact

/-- Four calls leave two entries, the later link of the name among them. -/
theorem finiteMap_of_reachable_fourCalls : ∃ x : DirSys,
    x.FiniteMap 0x100 (FileDev.empty (fun _ => Block.zero) FileDev.sixty).slots.lookup ∧
      x.dp.entries = 2 ∧ lastLink [0x63, 0x64] none x.history = some 7 := by
  have hrun : (checkedSteps (step 0x100) check fourCalls
      ⟨FileDev.empty (fun _ => Block.zero) FileDev.sixty, []⟩).any (fun x =>
        x.dp.i_size.toNat < 32768 ∧ x.dp.entries = 2 ∧
          lastLink [0x63, 0x64] none x.history = some 7) = true := by
    decide +kernel
  obtain ⟨x, hx, hend⟩ := (Option.any_eq_true _ _).mp hrun
  obtain ⟨hsize, hentries, hlast⟩ := of_decide_eq_true hend
  have hreach : Reachable (step 0x100) Ok _ x := .of_checkedSteps .refl ok_of_check hx
  exact ⟨x, finiteMap_of_reachable (directory_empty (by decide) (by decide)) hreach hsize,
    hentries, hlast⟩

end DirSys

end UnixV6
