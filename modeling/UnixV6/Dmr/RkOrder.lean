import UnixV6.Dmr.RkLists

/-!
# The disk serves its requests in order

In every run of the calls and the interrupts the log of the driver is one of a server: requests are
started in the order in which they are accepted, each is finished once, after the commands for all
its sectors, and at most one is active. The queue from `d_actf` on are the requests not finished.
-/

open Function

namespace UnixV6.DiskQueue

/-- The sectors from `sector` on, as `ideintr` counts them. -/
def sectorsFrom (sector : ℕ) : ℕ → List ℕ
  | 0 => []
  | n + 1 => sector :: sectorsFrom ((sector + 1) % 65536) n

/-- The sectors of a request. There is always one. -/
def Req.sectors (r : Req) : List ℕ := sectorsFrom r.sector (max 1 r.count)

/-- What the log says about the requests that are accepted. -/
def Event.served : Event → Option (ServerEvent Req ℕ)
  | .accept r => some (.accept r)
  | .start r => some (.start r)
  | .command sector => some (.command sector)
  | .iodone r false => some (.finish r)
  | _ => none

/-- The requests that are rejected. -/
def rejected (log : List Event) : List Hdr :=
  log.filterMap fun | .reject bp => some bp | _ => none

/-- The requests that are completed with an error. -/
def failed (log : List Event) : List Hdr :=
  log.filterMap fun | .iodone r true => some r.bp | _ => none

/-- The events of the driver itself. -/
def Event.Quiet : Event → Prop
  | .start _ | .command _ | .iodone _ false => True
  | _ => False

/-- The request that a call has rejected and not completed yet. -/
def Call.rejects : Call → List Hdr
  | .rejecting bp => [bp]
  | _ => []

namespace Disk

variable {s s' : Disk} {q la : List Hdr} {bp x : Hdr}

/-! ## The controller -/

/-- A command has been given for the first sector that is not due any more. -/
structure Flight (s : Ide) (due : Option (List ℕ)) : Prop where
  irq : s.drive.irq = due.isSome
  due : ∀ ks ∈ due, ks = sectorsFrom ((s.io_sector + 1) % 65536) (s.io_count - 1).toNat

/-- Each command is followed by one interrupt. -/
theorem idestart_irq {sector : ℕ} (data seg : ℕ) (s : Ide) (hsector : sector < 65536) :
    ∃ d : Drive, idestart sector data seg s = { s with drive := d } ∧ d.irq = true := by
  by_cases hdata : data = 0
  · obtain ⟨d, hrun, hirq, -⟩ := idestart_read seg s hsector hdata
    exact ⟨d, hrun, hirq⟩
  · obtain ⟨d, hrun, hirq, -⟩ := idestart_write seg s hsector hdata
    exact ⟨d, hrun, hirq⟩

/-- The words of a sector are fetched into core. -/
theorem recvWords_fields (n : ℕ) (s : Ide) : ∃ mem xfer, recvWords n s = { s with
    mem := mem
    drive := { s.drive with xfer := xfer } } := by
  induction n with
  | zero => exact ⟨s.mem, s.drive.xfer, rfl⟩
  | succ n ih =>
    obtain ⟨mem, xfer, h⟩ := ih
    simp only [recvWords, h, inport]
    cases xfer <;> exact ⟨_, _, rfl⟩

/-- The counts of `ide.c` after a sector. -/
theorem ideintrData_fields (s : Ide) : (ideintrData s).io_sector = (s.io_sector + 1) % 65536 ∧
    (ideintrData s).io_count = s.io_count - 1 ∧ (ideintrData s).drive.irq = s.drive.irq := by
  rw [ideintrData]
  split_ifs
  · obtain ⟨mem, xfer, h⟩ := recvWords_fields 256
      { s with io_sector := (s.io_sector + 1) % 65536, io_count := s.io_count - 1 }
    rw [h]
    exact ⟨rfl, rfl, rfl⟩
  · exact ⟨rfl, rfl, rfl⟩

/-- The first sector of a request, and the others. -/
theorem sectorsFrom_pos {n : ℕ} (sector : ℕ) (hn : 0 < n) :
    sectorsFrom sector n = sector :: sectorsFrom ((sector + 1) % 65536) (n - 1) := by
  obtain ⟨m, rfl⟩ : ∃ m, n = m + 1 := ⟨n - 1, by omega⟩
  rfl

/-- `ideio` commands the first sector, and the others are to come. -/
theorem ideio_flight {sector : ℕ} (n off seg cmd : ℕ) (s : Ide) (hsector : sector < 65536) :
    Flight (ideio sector n off seg cmd s)
      (some (sectorsFrom ((sector + 1) % 65536) (n - 1))) := by
  obtain ⟨d, hrun, hirq⟩ := idestart_irq (if cmd = 0 then off else 0) seg
    { s with io_sector := sector, io_count := n, io_buf := off, io_seg := seg, io_cmd := cmd }
    hsector
  have hio : ideio sector n off seg cmd s = _ := hrun
  rw [hio]
  refine ⟨hirq, fun ks hks => ?_⟩
  have hcount : ((n : ℤ) - 1).toNat = n - 1 := by omega
  rw [← Option.some.inj hks, ← hcount]

/-- `devstart` commands the first sector. -/
theorem devstart_eq (bp : Hdr) (s : Disk) (hcount : (s.reqOf bp).count ≤ 2048) : ∃ i : Ide,
    s.devstart bp = { s.logged (.command (s.reqOf bp).sector) with toIde := i } ∧
      Flight i (some (s.reqOf bp).sectors.tail) := by
  have hint : s.nsectors bp < 32768 := lt_of_le_of_lt hcount (by decide)
  have htail : (s.reqOf bp).sectors.tail =
      sectorsFrom (((s.reqOf bp).sector + 1) % 65536) (s.nsectors bp - 1) := by
    rw [Req.sectors, sectorsFrom_pos _ (by omega), List.tail_cons]
    show sectorsFrom _ (max 1 (s.nsectors bp) - 1) = _
    congr 1
    omega
  rw [htail]
  refine ⟨_, rfl, ?_⟩
  rw [if_pos hint]
  exact ideio_flight _ _ _ _ _ (BitVec.isLt _)

/-! ## The log -/

/-- The server that the log describes, with what the headers in the queue ask for. -/
structure Core (s : Disk) (srv : Server Req ℕ) (la : List Hdr) : Prop where
  lists : Lists s (srv.queue.map Req.bp) la
  log : Server.run Req.sectors (s.log.filterMap Event.served) {} = some srv
  reqs : ∀ r ∈ srv.queue, s.reqOf r.bp = r ∧ r.count ≤ 2048 ∧ (s.b_flags r.bp).b_error = false
  active : s.d_active = if srv.due.isSome then 1 else 0

/-- What happens to a call while the disk is served: nothing. -/
structure Bystander (s s' : Disk) : Prop where
  call : s'.call = s.call
  log : ∃ es, (∀ e ∈ es, Event.Quiet e) ∧ s'.log = s.log ++ es

namespace Bystander

/-- Two steps that leave a call alone. -/
theorem trans {s₁ s₂ s₃ : Disk} (h : Bystander s₁ s₂) (h' : Bystander s₂ s₃) :
    Bystander s₁ s₃ := by
  obtain ⟨es, hes, hlog⟩ := h.log
  obtain ⟨es', hes', hlog'⟩ := h'.log
  refine ⟨h'.call.trans h.call, es ++ es', fun e he => ?_, ?_⟩
  · exact (List.mem_append.mp he).elim (hes e) (hes' e)
  · rw [hlog', hlog, List.append_assoc]

/-- What is read off the log has nothing of the driver's own events. -/
theorem filterMap_log {α : Type} (h : Bystander s s') {g : Event → Option α}
    (hstart : ∀ r, g (.start r) = none) (hcommand : ∀ sector, g (.command sector) = none)
    (hiodone : ∀ r, g (.iodone r false) = none) : s'.log.filterMap g = s.log.filterMap g := by
  obtain ⟨es, hes, hlog⟩ := h.log
  have hnil : es.filterMap g = [] := by
    rw [List.filterMap_eq_nil_iff]
    intro e he
    have hquiet := hes e he
    cases e with
    | accept r => exact hquiet.elim
    | reject bp => exact hquiet.elim
    | start r => exact hstart r
    | command sector => exact hcommand sector
    | iodone r error =>
      cases error with
      | false => exact hiodone r
      | true => exact hquiet.elim
  rw [hlog, List.filterMap_append, hnil, List.append_nil]

/-- Nothing has been accepted in between. -/
theorem accepted (h : Bystander s s') : ServerEvent.accepted (s'.log.filterMap Event.served) =
    ServerEvent.accepted (s.log.filterMap Event.served) := by
  rw [ServerEvent.accepted, ServerEvent.accepted, List.filterMap_filterMap,
    List.filterMap_filterMap]
  exact h.filterMap_log (fun _ => rfl) (fun _ => rfl) fun _ => rfl

theorem rejected (h : Bystander s s') : rejected s'.log = DiskQueue.rejected s.log :=
  h.filterMap_log (fun _ => rfl) (fun _ => rfl) fun _ => rfl

theorem failed (h : Bystander s s') : failed s'.log = DiskQueue.failed s.log :=
  h.filterMap_log (fun _ => rfl) (fun _ => rfl) fun _ => rfl

end Bystander

/-- The server takes one event more. -/
theorem run_served {srv srv' : Server Req ℕ} {log : List Event} {e : Event}
    {e' : ServerEvent Req ℕ} (he : e.served = some e')
    (h : Server.run Req.sectors (log.filterMap Event.served) {} = some srv)
    (hnext : srv.next Req.sectors e' = some srv') :
    Server.run Req.sectors ((log ++ [e]).filterMap Event.served) {} = some srv' := by
  have hone : [e].filterMap Event.served = [e'] := by
    rw [List.filterMap_cons_some he, List.filterMap_nil]
  rw [List.filterMap_append, hone, Server.run_concat, h]
  exact hnext

/-- The first request of the queue is started. -/
theorem Core.rkstart {srv : Server Req ℕ} (h : Core s srv la) (hdue : srv.due = none)
    (hirq : s.drive.irq = false) : ∃ due, Core s.rkstart { srv with due := due } la ∧
      Flight s.rkstart.toIde due ∧ (due = srv.queue.head?.map fun r => r.sectors.tail) ∧
      (∀ x, Kept x s s.rkstart) ∧ Bystander s s.rkstart := by
  rw [Disk.rkstart]
  by_cases hnil : srv.queue = []
  · have hfirst : s.d_actf = .null :=
      h.lists.queue.first_eq_null_iff.mpr (by rw [hnil, List.map_nil])
    -- nothing is queued
    rw [if_pos hfirst]
    refine ⟨none, ?_, ⟨hirq, by simp⟩, by rw [hnil]; rfl,
      fun _ => ⟨rfl, rfl, rfl⟩, rfl, [], by simp, by rw [List.append_nil]⟩
    rw [← hdue]
    exact h
  · -- the first request is started, and its first sector commanded
    obtain ⟨r, rest, hq⟩ := List.exists_cons_of_ne_nil hnil
    have hmem : r ∈ srv.queue := by
      rw [hq]
      exact List.mem_cons_self
    obtain ⟨hreq, hcount, -⟩ := h.reqs r hmem
    have hqueue := h.lists.queue
    rw [hq, List.map_cons] at hqueue
    have hfirst := hqueue.first_cons
    have hnull : ¬s.d_actf = .null := by
      rw [hfirst]
      exact fun heq => hqueue.null_notMem (heq ▸ List.mem_cons_self)
    rw [if_neg hnull, hfirst, hreq]
    have hreq' : ({ s.logged (.start r) with d_active := s.d_active + 1 } : Disk).reqOf r.bp = r :=
      hreq
    obtain ⟨i, hrun, hflight⟩ := devstart_eq r.bp
      { s.logged (.start r) with d_active := s.d_active + 1 } (by rw [hreq']; exact hcount)
    rw [hrun, hreq']
    rw [hreq'] at hflight
    have hlists : Lists { s.logged (.start r) with
        toIde := i, d_active := s.d_active + 1, log := s.log ++ [.start r] ++ [.command r.sector] }
        (srv.queue.map Req.bp) la :=
      h.lists.congr rfl rfl rfl rfl (fun _ => rfl) h.lists.swbuf.1 fun _ => rfl
    refine ⟨some r.sectors.tail, ⟨hlists, ?_, h.reqs, ?_⟩, hflight,
      by rw [hq]; rfl, fun _ => ⟨rfl, rfl, rfl⟩, rfl, [.start r, .command r.sector], ?_, ?_⟩
    · have hstart : srv.next Req.sectors (.start r) = some { srv with due := some r.sectors } :=
        if_pos ⟨hdue, by rw [hq]; rfl⟩
      have hsectors : r.sectors = r.sector :: r.sectors.tail := by
        rw [Req.sectors, sectorsFrom_pos _ (by omega)]
        rfl
      have hcommand : Server.next Req.sectors { srv with due := some r.sectors }
          (.command r.sector) = some { srv with due := some r.sectors.tail } := by
        rw [Server.next]
        simp only
        rw [hsectors]
        exact if_pos rfl
      exact run_served rfl (run_served rfl h.log hstart) hcommand
    · show s.d_active + 1 = _
      rw [h.active, hdue]
      rfl
    · simp [Event.Quiet]
    · simp [logged]

/-- The first request, of which no sector is due, is finished, and the next one is started. -/
theorem Core.rkintr {srv : Server Req ℕ} {r : Req} {rest : List Req} (h : Core s srv la)
    (hdue : srv.due = some []) (hirq : s.drive.irq = false) (hq : srv.queue = r :: rest) :
    ∃ due la', Core s.rkintr { queue := rest, due := due } la' ∧ Flight s.rkintr.toIde due ∧
      (due = rest.head?.map fun r => r.sectors.tail) ∧
      (∀ x, Held s (srv.queue.map Req.bp) x → Kept x s s.rkintr) ∧ Bystander s s.rkintr := by
  have hmem : r ∈ srv.queue := by
    rw [hq]
    exact List.mem_cons_self
  obtain ⟨hreq, -, herror⟩ := h.reqs r hmem
  have hlists := h.lists
  rw [hq, List.map_cons] at hlists
  have hfirst := hlists.queue.first_cons
  obtain ⟨hne, hbusy⟩ := hlists.queued r.bp List.mem_cons_self
  have hnodup := (List.nodup_cons.mp hlists.queue.nodup).2
  have hactive : ¬s.d_active = 0 := by
    rw [h.active, hdue]
    decide
  rw [Disk.rkintr, if_neg hactive, hfirst]
  dsimp only
  have hpop := hlists.pop rfl
  have hheld : Held { s with d_active := 0, d_errcnt := 0, d_actf := s.av_forw r.bp }
      (rest.map Req.bp) r.bp :=
    ⟨fun heq => hlists.queue.null_notMem (heq ▸ List.mem_cons_self), hne, hbusy,
      (List.nodup_cons.mp hnodup).1⟩
  obtain ⟨⟨la', hdone⟩, hothers, hcall, hlog, hforw⟩ := hpop.iodone hheld
  -- the others in the queue keep what they ask for
  have hreqs : ∀ r' ∈ rest, r'.bp ≠ r.bp ∧ r'.bp ≠ .bfreelist := by
    intro r' hr'
    have hbp : r'.bp ∈ rest.map Req.bp := List.mem_map_of_mem hr'
    exact ⟨ne_of_mem_of_not_mem hbp hheld.notMem,
      (hlists.queued r'.bp (List.mem_cons_of_mem _ hbp)).1⟩
  have hfinish : srv.next Req.sectors (.finish r) = some { queue := rest, due := none } := by
    rw [Server.next, hdue, hq]
    exact if_pos ⟨rfl, rfl⟩
  have hevent : Event.served (.iodone (s.reqOf r.bp) (s.b_flags r.bp).b_error) =
      some (.finish r) := by
    rw [hreq, herror]
    rfl
  have hcore : Core (iodone r.bp { s with
      d_active := 0, d_errcnt := 0, d_actf := s.av_forw r.bp })
      { queue := rest, due := none } la' := by
    refine ⟨hdone, ?_, fun r' hr' => ?_, hothers.d_active⟩
    · rw [hlog]
      exact run_served hevent h.log hfinish
    · obtain ⟨hreq', hcount', herror'⟩ := h.reqs r' (by rw [hq]; exact List.mem_cons_of_mem _ hr')
      obtain ⟨hbp, hhead⟩ := hreqs r' hr'
      rw [hothers.reqOf hbp hhead, hothers.b_flags _ hbp hhead]
      exact ⟨hreq', hcount', herror'⟩
  obtain ⟨due, hcore', hflight, hnext, hkept, hby⟩ := hcore.rkstart rfl (by
    rw [hothers.toIde]
    exact hirq)
  refine ⟨due, la', hcore', hflight, hnext, fun x hx => ?_,
    Bystander.trans ⟨hcall, _, ?_, hlog⟩ hby⟩
  · have hne : x ≠ r.bp := by
      rintro rfl
      exact hx.notMem (List.mem_map_of_mem hmem)
    refine Kept.trans ⟨?_, ?_, ?_⟩ (hkept x)
    · exact hothers.b_flags x hne hx.ne_bfreelist
    · exact hothers.reqOf hne hx.ne_bfreelist
    · exact hforw x hne hx.ne_bfreelist hx.busy
  · have herror₁ : (({ s with
        d_active := 0, d_errcnt := 0, d_actf := s.av_forw r.bp } : Disk).b_flags r.bp).b_error =
        false := herror
    rw [herror₁]
    simp [Event.Quiet]

/-- What `ide.c` keeps does not matter for the queue. -/
theorem Core.ide {srv : Server Req ℕ} (h : Core s srv la) (i : Ide) :
    Core { s with toIde := i } srv la :=
  ⟨h.lists.congr rfl rfl rfl rfl (fun _ => rfl) h.lists.swbuf.1 fun _ => rfl, h.log, h.reqs,
    h.active⟩

/-- Nor does where a call stands. -/
theorem Core.call {srv : Server Req ℕ} (h : Core s srv la) (c : Call) :
    Core { s with call := c } srv la :=
  ⟨h.lists.congr rfl rfl rfl rfl (fun _ => rfl) h.lists.swbuf.1 fun _ => rfl, h.log, h.reqs,
    h.active⟩

/-- The sectors whose interrupts are to come. -/
def work (srv : Server Req ℕ) : ℕ :=
  match srv.due with
  | none => 0
  | some ks => ks.length + 1 + (srv.queue.tail.map fun r => r.sectors.length).sum

/-- The interrupt that ends a sector. -/
theorem Core.ideintr {srv : Server Req ℕ} (h : Core s srv la) (hflight : Flight s.toIde srv.due)
    (hdue : srv.due.isSome) (hqueue : srv.queue ≠ []) :
    let s₀ : Disk := { s with drive := { s.drive with irq := false } }
    ∃ srv' la', Core s₀.ideintr srv' la' ∧ Flight s₀.ideintr.toIde srv'.due ∧
      (srv'.queue ≠ [] → srv'.due.isSome) ∧ srv'.queue <:+ srv.queue ∧ work srv' + 1 = work srv ∧
      (∀ x, Held s (srv.queue.map Req.bp) x → Kept x s s₀.ideintr) ∧ Bystander s s₀.ideintr := by
  intro s₀
  -- the sectors still due are known from the drive's registers
  obtain ⟨ks, hks⟩ := Option.isSome_iff_exists.mp hdue
  have hsectors := hflight.due ks hks
  obtain ⟨hsector, hcount, hirq⟩ := ideintrData_fields s₀.toIde
  change _ = (s.io_sector + 1) % 65536 at hsector
  change _ = s.io_count - 1 at hcount
  change _ = false at hirq
  have hcore := h.ide (ideintrData s₀.toIde)
  generalize hi : ideintrData s₀.toIde = i at hsector hcount hirq hcore
  by_cases hlast : i.io_count ≤ 0
  · -- the last sector of the request
    have hrun : s₀.ideintr = Disk.rkintr { s with toIde := i } := by
      rw [← hi] at hlast ⊢
      exact if_pos hlast
    rw [hrun]
    -- the request at the head of the queue is finished, and the next one starts
    obtain ⟨r, rest, hq⟩ := List.exists_cons_of_ne_nil hqueue
    have hnone : srv.due = some [] := by
      rw [hks, hsectors]
      have hzero : (s.io_count - 1).toNat = 0 := by omega
      rw [hzero, sectorsFrom]
    obtain ⟨due, la', hcore', hflight', hnext, hkept, hby⟩ := hcore.rkintr hnone hirq hq
    refine ⟨_, la', hcore', hflight', fun hne => ?_, ?_, ?_, fun x hx => ?_,
      hby.call, hby.log⟩
    · obtain ⟨r', rest', rfl⟩ := List.exists_cons_of_ne_nil hne
      rw [hnext]
      rfl
    · rw [hq]
      exact List.suffix_cons r rest
    -- the work left: the finished request's last sector is gone
    · simp only [work, hnone, hq, hnext]
      cases rest with
      | nil => rfl
      | cons r' rest =>
        have hpos : 0 < r'.sectors.length := by
          rw [Req.sectors, sectorsFrom_pos _ (by omega)]
          exact Nat.succ_pos _
        simp only [List.head?_cons, Option.map_some, List.length_tail, List.tail_cons,
          List.map_cons, List.sum_cons, List.length_nil]
        omega
    · obtain ⟨hflags, hreq, hforw⟩ := hkept x ⟨hx.ne_null, hx.ne_bfreelist, hx.busy, hx.notMem⟩
      exact ⟨hflags, hreq, hforw⟩
  · -- the next one
    have hnext : s₀.ideintr = { s.logged (.command i.io_sector) with
        toIde := idestart i.io_sector
          (if i.io_cmd = 0 then i.io_buf else 0)
          i.io_seg i } := by
      rw [← hi] at hlast ⊢
      exact if_neg hlast
    -- the registers stand at the next sector
    rw [hcount] at hlast
    have hpos : ks = (s.io_sector + 1) % 65536 ::
        sectorsFrom (((s.io_sector + 1) % 65536 + 1) % 65536) ((s.io_count - 1).toNat - 1) := by
      rw [hsectors, sectorsFrom_pos _ (by omega)]
    obtain ⟨d, hrun, hcommand⟩ := idestart_irq
      (if i.io_cmd = 0 then i.io_buf else 0)
      i.io_seg i
      (show i.io_sector < 65536 by rw [hsector]; omega)
    rw [hnext, hrun]
    -- only the server's current sector moves on
    refine ⟨{ srv with due := some ks.tail }, la, ⟨?_, ?_, h.reqs, ?_⟩, ⟨hcommand, ?_⟩,
      fun _ => rfl, List.suffix_refl _, ?_, fun _ _ => ⟨rfl, rfl, rfl⟩, rfl, [.command i.io_sector],
      ?_, rfl⟩
    · exact h.lists.congr rfl rfl rfl rfl (fun _ => rfl) h.lists.swbuf.1 fun _ => rfl
    · refine run_served rfl h.log ?_
      rw [Server.next, hks, hpos]
      exact if_pos hsector
    · show s.d_active = _
      rw [h.active, hks]
      rfl
    -- what is due now is what was due, without its first sector
    · intro ks' hks'
      obtain rfl := Option.some.inj hks'
      rw [hpos]
      show _ = sectorsFrom ((i.io_sector + 1) % 65536)
        (i.io_count - 1).toNat
      rw [hsector, hcount, List.tail_cons]
      congr 1
      omega
    · simp only [work, hks, hpos, List.tail_cons, List.length_cons]
      omega
    · simp [Event.Quiet]

/-! ## Runs -/

/-- What a call has done so far. -/
def CallOk (s : Disk) (q : List Hdr) : Prop :=
  match s.call with
  | .none => True
  | .queueing bp => Held s q bp ∧ s.av_forw bp = .null ∧ (s.reqOf bp).count ≤ 2048 ∧
      (s.b_flags bp).b_error = false ∧ (s.b_flags bp).b_done = false
  | .rejecting bp => Held s q bp ∧ (s.b_flags bp).b_error = true
  | .releasing bp => Held s q bp ∧ bp.IsBuf

/-- The system between two steps. -/
structure Inv (s : Disk) (srv : Server Req ℕ) (la : List Hdr) : Prop where
  core : Core s srv la
  flight : Flight s.toIde srv.due
  running : srv.queue ≠ [] → srv.due.isSome
  call : CallOk s (srv.queue.map Req.bp)
  rejects : rejected s.log = failed s.log ++ s.call.rejects

/-- The interrupts leave a buffer alone that a call has in its hands. -/
theorem CallOk.kept {q q' : List Hdr} (h : CallOk s q) (hcall : s'.call = s.call) (hq : q' ⊆ q)
    (hkept : ∀ x, Held s q x → Kept x s s') : CallOk s' q' := by
  have hheld : ∀ x, Held s q x → Held s' q' x := fun x hx =>
    ⟨hx.ne_null, hx.ne_bfreelist, by rw [(hkept x hx).b_flags]; exact hx.busy,
      fun hmem => hx.notMem (hq hmem)⟩
  rw [CallOk] at h ⊢
  rw [hcall]
  split at h
  · trivial
  · obtain ⟨hbp, hforw, hcount, herror, hdone⟩ := h
    have hk := hkept _ hbp
    refine ⟨hheld _ hbp, ?_, ?_, ?_, ?_⟩
    · rw [hk.av_forw, hforw]
    · rw [hk.reqOf]
      exact hcount
    · rw [hk.b_flags, herror]
    · rw [hk.b_flags, hdone]
  · obtain ⟨hbp, herror⟩ := h
    exact ⟨hheld _ hbp, by rw [(hkept _ hbp).b_flags, herror]⟩
  · exact ⟨hheld _ h.1, h.2⟩

namespace Inv

variable {srv : Server Req ℕ}

/-- The pending interrupt is taken: one sector less is to come. -/
theorem intr (h : Inv s srv la) (hs : step s .intr = some s') :
    ∃ srv' la', Inv s' srv' la' ∧ work srv' + 1 = work srv ∧
      ServerEvent.accepted (s'.log.filterMap Event.served) =
        ServerEvent.accepted (s.log.filterMap Event.served) := by
  obtain ⟨hirq, hs⟩ := Option.ite_none_right_eq_some.mp hs
  obtain rfl := Option.some.inj hs
  rw [h.flight.irq] at hirq
  have hqueue : srv.queue ≠ [] := (Server.run_eq h.core.log).2.2.2 hirq
  obtain ⟨srv', la', hcore, hflight, hrun, hsub, hwork, hkept, hby⟩ :=
    h.core.ideintr h.flight hirq hqueue
  refine ⟨srv', la', ⟨hcore, hflight, hrun, ?_, ?_⟩, hwork, hby.accepted⟩
  · exact h.call.kept hby.call (List.map_subset _ hsub.subset) hkept
  · rw [hby.rejected, hby.failed, hby.call]
    exact h.rejects

/-- The request of a call gets into the queue. -/
theorem enqueue {bp : Hdr} (h : Inv s srv la) (hcall : s.call = .queueing bp) :
    ∃ srv', Inv { s.enqueue bp with call := .none } srv' la := by
  have hok := h.call
  rw [CallOk, hcall] at hok
  -- the request's guards were checked by `rkstrategy`
  obtain ⟨hbp, hforw, hcount, herror, hdone⟩ := hok
  have hlists := (h.core.lists.logged (.accept (s.reqOf bp))).putLast
    (⟨hbp.ne_null, hbp.ne_bfreelist, hbp.busy, hbp.notMem⟩ : Held (s.logged _) _ bp) hforw hdone
  obtain ⟨hide, hactive, hlog, hflags, hreq⟩ := putLast_fields bp (s.logged (.accept (s.reqOf bp)))
  change _ = s.d_active at hactive
  rw [Disk.enqueue]
  -- only what is known of the state behind `putLast` counts from here
  generalize (s.logged (.accept (s.reqOf bp))).putLast bp = s₂
    at hlists hide hactive hlog hflags hreq
  -- the request is at the end of the queue
  have hcore : Core s₂ { srv with queue := srv.queue ++ [s.reqOf bp] } la := by
    refine ⟨?_, ?_, fun r hr => ?_, by rw [hactive]; exact h.core.active⟩
    · rw [List.map_append]
      exact hlists
    · rw [hlog]
      exact run_served rfl h.core.log rfl
    · rw [hreq, hflags]
      rcases List.mem_append.mp hr with hr | hr
      · exact h.core.reqs r hr
      · rw [List.mem_singleton.mp hr]
        exact ⟨rfl, hcount, herror⟩
  -- what is rejected does not change
  have hrejects : rejected s₂.log = failed s₂.log := by
    have hold := h.rejects
    rw [hcall, show (Call.queueing bp).rejects = [] from rfl, List.append_nil] at hold
    rw [hlog]
    simpa [rejected, failed, logged] using hold
  dsimp only
  by_cases hidle : s₂.d_active = 0
  · -- the disk has nothing else to do
    rw [if_pos hidle]
    have hnone : srv.due = none := by
      rw [hactive, h.core.active] at hidle
      by_contra hne
      rw [if_pos (Option.isSome_iff_ne_none.mpr hne)] at hidle
      exact absurd hidle (by decide)
    obtain ⟨due, hcore', hflight, hdue, -, hby⟩ := hcore.rkstart hnone (by
      rw [hide]
      exact h.flight.irq.trans (by rw [hnone]; rfl))
    refine ⟨{ queue := srv.queue ++ [s.reqOf bp], due := due }, hcore'.call .none, hflight,
      fun _ => ?_, trivial, ?_⟩
    · rw [hdue]
      simp
    · show rejected s₂.rkstart.log = failed s₂.rkstart.log ++ []
      rw [hby.rejected, hby.failed, hrejects, List.append_nil]
  · rw [if_neg hidle]
    -- the disk is at work on an earlier request
    have hsome : srv.due.isSome := by
      by_contra hne
      rw [hactive, h.core.active, if_neg hne] at hidle
      exact hidle rfl
    refine ⟨{ srv with queue := srv.queue ++ [s.reqOf bp] }, hcore.call .none, ?_, fun _ => hsome,
      trivial, ?_⟩
    · show Flight s₂.toIde srv.due
      rw [hide]
      exact h.flight
    · show rejected s₂.log = failed s₂.log ++ []
      rw [hrejects, List.append_nil]

/-- A step of a process that leaves the requests in the queue alone. -/
theorem others {la' : List Hdr} (h : Inv s srv la) (bp : Hdr)
    (hlists : Lists s' (srv.queue.map Req.bp) la') (hothers : Others bp s s')
    (hbp : bp ∉ srv.queue.map Req.bp)
    (hlog : s'.log.filterMap Event.served = s.log.filterMap Event.served)
    (hcall : CallOk s' (srv.queue.map Req.bp))
    (hrejects : rejected s'.log = failed s'.log ++ s'.call.rejects) : Inv s' srv la' := by
  refine ⟨⟨hlists, ?_, fun r hr => ?_, ?_⟩, ?_, h.running, hcall, hrejects⟩
  · rw [hlog]
    exact h.core.log
  · have hmem : r.bp ∈ srv.queue.map Req.bp := List.mem_map_of_mem hr
    have hne := ne_of_mem_of_not_mem hmem hbp
    have hhead := (h.core.lists.queued _ hmem).1
    rw [hothers.reqOf hne hhead, hothers.b_flags _ hne hhead]
    exact h.core.reqs r hr
  · rw [hothers.d_active]
    exact h.core.active
  · rw [hothers.toIde]
    exact h.flight

/-- A call of `rkstrategy` begins. -/
theorem rkstrategy {fl : BFlags} {b_dev b_blkno : Dev} {b_wcount : BitVec 16} {b_addr b_xmem : ℕ}
    (h : Inv s srv la)
    (hs : step s (.rkstrategy bp fl b_dev b_blkno b_wcount b_addr b_xmem) = some s') :
    Inv s' srv la := by
  obtain ⟨⟨hcall, hqueued, hbusy, hdone, herror, hcount, hbp⟩, hs⟩ :=
    Option.ite_none_right_eq_some.mp hs
  obtain rfl := Option.some.inj hs
  rw [h.core.lists.queued_iff] at hqueued
  -- `swap` makes its buffer busy, the others are
  have hown : bp ≠ .null ∧ bp ∉ .bfreelist :: la ∧ (bp = .swbuf → fl.b_async = false) := by
    cases bp with
    | null => exact hbp.elim
    | bfreelist => exact hbp.elim
    | swbuf =>
      refine ⟨by decide, ?_, fun _ => hbp.2⟩
      rw [List.mem_cons, not_or]
      exact ⟨by decide, fun hmem => ((h.core.lists.mem_avail _).mp hmem).1⟩
    | buf n => exact ⟨by simp, h.core.lists.notMem_avail (by simp) hbp, by simp⟩
  obtain ⟨hnull, havail, hasync⟩ := hown
  have hhead : bp ≠ .bfreelist := fun heq => havail (heq ▸ List.mem_cons_self)
  have hrejects : rejected s.log = failed s.log := by
    have hold := h.rejects
    rw [hcall, show Call.none.rejects = [] from rfl, List.append_nil] at hold
    exact hold
  rw [Disk.rkstrategy]
  split_ifs with hreject
  · refine h.others bp (h.core.lists.fill { fl with b_error := true } hqueued
      (fun hmem => havail (List.mem_cons_of_mem _ hmem)) hbusy hasync ?_ rfl rfl rfl rfl) ?_ hqueued
      ?_ ?_ ?_
    · simp [Disk.setFlags, Disk.logged]
    · exact ⟨fun x hx _ => by simp [Disk.setFlags, Disk.logged, update_of_ne hx],
        fun x hx => update_of_ne hx .., fun x hx => update_of_ne hx ..,
        fun x hx => update_of_ne hx .., rfl, rfl, rfl, rfl⟩
    · simp [Disk.setFlags, Disk.logged, Event.served]
    · refine ⟨⟨hnull, hhead, ?_, hqueued⟩, ?_⟩
      · simpa [Disk.setFlags, Disk.logged] using hbusy
      · simp [Disk.setFlags, Disk.logged]
    · simp only [Disk.setFlags, Disk.logged, rejected, failed, List.filterMap_append] at hrejects ⊢
      rw [hrejects]
      simp [Call.rejects]
  · have hfill : Lists { s with
        b_flags := update s.b_flags bp fl
        b_dev := update s.b_dev bp b_dev
        b_blkno := update s.b_blkno bp b_blkno
        b_wcount := update s.b_wcount bp b_wcount
        b_addr := update s.b_addr bp b_addr
        b_xmem := update s.b_xmem bp b_xmem } (srv.queue.map Req.bp) la :=
      h.core.lists.fill fl hqueued (fun hmem => havail (List.mem_cons_of_mem _ hmem)) hbusy hasync
        rfl rfl rfl rfl rfl
    refine h.others bp ⟨?_, ?_, hfill.mem_avail, hfill.queued, hfill.swbuf⟩ ?_
      hqueued rfl ?_ ?_
    · exact hfill.queue.congr fun y hy => update_of_ne (ne_of_mem_of_not_mem hy hqueued) ..
    · exact hfill.avail.congr (fun y hy => update_of_ne (ne_of_mem_of_not_mem hy havail) ..)
        fun _ _ => rfl
    · exact ⟨fun x hx _ => update_of_ne hx .., fun x hx => update_of_ne hx ..,
        fun x hx => update_of_ne hx .., fun x hx => update_of_ne hx .., rfl, rfl, rfl, rfl⟩
    · refine ⟨⟨hnull, hhead, ?_, hqueued⟩, update_self .., ?_, ?_, ?_⟩
      · simpa using hbusy
      · simp only [reqOf, nsectors, update_self]
        split_ifs with hphys
        · have := hcount hphys
          omega
        · decide
      · simpa using herror
      · simpa using hdone
    · show rejected s.log = failed s.log ++ []
      rw [hrejects, List.append_nil]

/-- A call goes on. -/
theorem proceed (h : Inv s srv la) (hs : step s .proceed = some s') :
    ∃ srv' la', Inv s' srv' la' := by
  have hok := h.call
  have hrejects := h.rejects
  rw [CallOk] at hok
  rw [step] at hs
  split at hs
  · exact absurd hs (by simp)
  case h_2 bp hcall =>
    -- the request is accepted
    obtain ⟨srv', h'⟩ := h.enqueue hcall
    rw [← Option.some.inj hs]
    exact ⟨srv', la, h'⟩
  case h_3 bp hcall =>
    rw [hcall] at hok hrejects
    -- the request is rejected: `iodone` is called with the error set
    obtain ⟨hbp, herror⟩ := hok
    have hdone := h.core.lists.markDone hbp.notMem
    have hothers := markDone_others bp s
    have hserved : (s.markDone bp).log.filterMap Event.served =
        s.log.filterMap Event.served := by
      simp [Disk.markDone, Disk.setFlags, Disk.logged, Event.served, herror]
    have hends : rejected (s.markDone bp).log = failed (s.markDone bp).log ++ [] := by
      simp only [Disk.markDone, Disk.setFlags, Disk.logged, herror]
      simp only [rejected, failed, List.filterMap_append] at hrejects ⊢
      rw [hrejects]
      simp [Call.rejects, reqOf]
    dsimp only at hs
    split_ifs at hs with hasync
    · rw [← Option.some.inj hs]
      -- an asynchronous buffer is released
      have hlists := hdone.brelseFlags bp
      obtain ⟨-, -, -, hlog⟩ := brelseFlags_fields bp (s.markDone bp)
      have hflags := hothers.trans (brelseFlags_others bp (s.markDone bp))
      have hheld := hbp.markDone.brelseFlags
      refine ⟨srv, la, h.others bp ?_ ?_ hbp.notMem ?_ ?_ ?_⟩
      · exact hlists.congr rfl rfl rfl rfl (fun _ => rfl) hlists.swbuf.1 fun _ => rfl
      · exact ⟨hflags.b_flags, hflags.b_dev, hflags.b_blkno, hflags.b_wcount, hflags.toIde,
          hflags.d_active, hflags.d_actf, hflags.d_actl⟩
      · show ((s.markDone bp).brelseFlags bp).log.filterMap _ = _
        rw [hlog, hserved]
      · exact ⟨⟨hheld.ne_null, hheld.ne_bfreelist, hheld.busy, hheld.notMem⟩,
          hbp.markDone.isBuf hdone hasync⟩
      · show rejected ((s.markDone bp).brelseFlags bp).log =
          failed ((s.markDone bp).brelseFlags bp).log ++ []
        rw [hlog]
        exact hends
    · rw [← Option.some.inj hs]
      -- the caller waits for this one
      have hlists : Lists ((s.markDone bp).unwant bp) (srv.queue.map Req.bp) la :=
        hdone.setFlags hbp.notMem _ (fun _ => rfl) fun _ => rfl
      have hflags := hothers.trans (setFlags_others bp (fun fl => { fl with b_wanted := false })
        (s.markDone bp))
      refine ⟨srv, la, h.others bp ?_ ?_ hbp.notMem hserved trivial hends⟩
      · exact hlists.congr rfl rfl rfl rfl (fun _ => rfl) hlists.swbuf.1 fun _ => rfl
      · exact ⟨hflags.b_flags, hflags.b_dev, hflags.b_blkno, hflags.b_wcount, hflags.toIde,
          hflags.d_active, hflags.d_actf, hflags.d_actl⟩
  case h_4 bp hcall =>
    rw [hcall] at hok hrejects
    obtain ⟨hbp, hbuf⟩ := hok
    rw [← Option.some.inj hs]
    -- the second half of `brelse`
    have hlists := h.core.lists.brelseLinks hbuf hbp
    have hflags := brelseLinks_others bp s
    refine ⟨srv, la ++ [bp], h.others bp ?_ ?_ hbp.notMem rfl trivial hrejects⟩
    · exact hlists.congr rfl rfl rfl rfl (fun _ => rfl) hlists.swbuf.1 fun _ => rfl
    · exact ⟨hflags.b_flags, hflags.b_dev, hflags.b_blkno, hflags.b_wcount, hflags.toIde,
        hflags.d_active, hflags.d_actf, hflags.d_actl⟩

/-- A buffer is taken from the available list. -/
theorem notavail (h : Inv s srv la) (hs : step s (.notavail bp) = some s') :
    ∃ la', Inv s' srv la' := by
  obtain ⟨⟨hcall, hbuf, hfree⟩, hs⟩ := Option.ite_none_right_eq_some.mp hs
  rw [← Option.some.inj hs]
  have hrejects := h.rejects
  have hbp : bp ∉ srv.queue.map Req.bp := by
    intro hmem
    rw [(h.core.lists.queued bp hmem).2] at hfree
    exact absurd hfree (by decide)
  refine ⟨_, h.others bp (h.core.lists.notavail hbuf hfree) ?_ hbp rfl ?_ hrejects⟩
  · exact ⟨fun x hx _ => update_of_ne hx .., fun _ _ => rfl, fun _ _ => rfl, fun _ _ => rfl, rfl,
      rfl, rfl, rfl⟩
  · rw [CallOk, show (s.notavail bp).call = .none from hcall]
    trivial

/-- A process releases a buffer. -/
theorem brelse (h : Inv s srv la) (hs : step s (.brelse bp) = some s') : Inv s' srv la := by
  obtain ⟨⟨hcall, hbuf, hbusy, hqueued⟩, hs⟩ := Option.ite_none_right_eq_some.mp hs
  rw [← Option.some.inj hs]
  rw [h.core.lists.queued_iff] at hqueued
  have hrejects := h.rejects
  rw [hcall] at hrejects
  have hbp : Held s (srv.queue.map Req.bp) bp := by
    refine ⟨?_, ?_, hbusy, hqueued⟩
    · rintro rfl
      exact hbuf
    · rintro rfl
      exact hbuf
  have hlists := h.core.lists.brelseFlags bp
  obtain ⟨-, -, -, hlog⟩ := brelseFlags_fields bp s
  have hflags := brelseFlags_others bp s
  have hheld := hbp.brelseFlags
  refine h.others bp ?_ ?_ hqueued ?_ ?_ ?_
  · exact hlists.congr rfl rfl rfl rfl (fun _ => rfl) hlists.swbuf.1 fun _ => rfl
  · exact ⟨hflags.b_flags, hflags.b_dev, hflags.b_blkno, hflags.b_wcount, hflags.toIde,
      hflags.d_active, hflags.d_actf, hflags.d_actl⟩
  · show (s.brelseFlags bp).log.filterMap _ = _
    rw [hlog]
  · exact ⟨⟨hheld.ne_null, hheld.ne_bfreelist, hheld.busy, hheld.notMem⟩, hbuf⟩
  · show rejected (s.brelseFlags bp).log = failed (s.brelseFlags bp).log ++ []
    rw [hlog]
    exact hrejects

theorem swapDone (h : Inv s srv la) (hs : step s .swapDone = some s') : Inv s' srv la := by
  obtain ⟨⟨hcall, hbusy, hdone⟩, hs⟩ := Option.ite_none_right_eq_some.mp hs
  rw [← Option.some.inj hs]
  have hrejects := h.rejects
  have hbp : Hdr.swbuf ∉ srv.queue.map Req.bp := by
    intro hmem
    rw [h.core.lists.swbuf.2 hmem] at hdone
    exact absurd hdone (by decide)
  have hother : ∀ x, x ≠ .swbuf → (s.setFlags .swbuf fun fl =>
      { fl with b_busy := false, b_wanted := false }).b_flags x = s.b_flags x := fun x hx =>
    update_of_ne hx ..
  have hlists := h.core.lists
  refine h.others .swbuf ⟨hlists.queue, hlists.avail, fun x => ?_, fun x hx => ?_, ?_, ?_⟩
    (setFlags_others _ _ s) hbp rfl ?_ hrejects
  · by_cases hx : x = .swbuf
    · subst hx
      rw [hlists.mem_avail]
      exact iff_of_false (fun hmem => hmem.1) fun hmem => hmem.1
    · rw [hother x hx]
      exact hlists.mem_avail x
  · rw [hother x (ne_of_mem_of_not_mem hx hbp)]
    exact hlists.queued x hx
  · rw [setFlags_self]
    exact hlists.swbuf.1
  · exact fun hmem => absurd hmem hbp
  · rw [CallOk, show (s.setFlags .swbuf _).call = .none from hcall]
    trivial

/-- Every step keeps the queue in order. -/
theorem step {a : Act} (h : Inv s srv la) (hs : DiskQueue.step s a = some s') :
    ∃ srv' la', Inv s' srv' la' := by
  cases a with
  | rkstrategy => exact ⟨_, _, h.rkstrategy hs⟩
  | proceed => exact h.proceed hs
  | intr =>
    obtain ⟨srv', la', h', -⟩ := h.intr hs
    exact ⟨srv', la', h'⟩
  | notavail => exact ⟨_, h.notavail hs⟩
  | brelse => exact ⟨_, _, h.brelse hs⟩
  | swapDone => exact ⟨_, _, h.swapDone hs⟩

/-- As long as there is a request there is an interrupt to come. -/
theorem exists_intr (h : Inv s srv la) (hqueue : srv.queue ≠ []) :
    ∃ s', DiskQueue.step s .intr = some s' := by
  refine ⟨_, if_pos ?_⟩
  rw [h.flight.irq]
  exact h.running hqueue

/-- With nothing but interrupts all requests are completed. -/
theorem drains (h : Inv s srv la) : ∃ s' srv' la', runSteps DiskQueue.step
    (List.replicate (work srv) .intr) s = some s' ∧ Inv s' srv' la' ∧ srv'.queue = [] ∧
      ServerEvent.accepted (s'.log.filterMap Event.served) =
        ServerEvent.accepted (s.log.filterMap Event.served) := by
  obtain ⟨n, hn⟩ : ∃ n, work srv = n := ⟨_, rfl⟩
  rw [hn]
  induction n generalizing s srv la with
  | zero =>
    refine ⟨s, srv, la, rfl, h, ?_, rfl⟩
    -- a queue that is not empty has sectors to come
    by_contra hqueue
    obtain ⟨ks, hks⟩ := Option.isSome_iff_exists.mp (h.running hqueue)
    rw [work, hks] at hn
    simp only at hn
    omega
  | succ n ih =>
    have hqueue : srv.queue ≠ [] := by
      intro hnil
      have hdue : srv.due = none := by
        by_contra hsome
        exact (Server.run_eq h.core.log).2.2.2 (Option.isSome_iff_ne_none.mpr hsome) hnil
      rw [work, hdue] at hn
      exact absurd hn (by simp)
    -- each interrupt takes one unit of work away and accepts nothing
    obtain ⟨s₁, hs₁⟩ := h.exists_intr hqueue
    obtain ⟨srv₁, la₁, h₁, hwork, haccepted⟩ := h.intr hs₁
    obtain ⟨s', srv', la', hrun, h', hnil, haccepted'⟩ := ih h₁ (by omega)
    refine ⟨s', srv', la', ?_, h', hnil, haccepted'.trans haccepted⟩
    rw [List.replicate_succ, runSteps, hs₁]
    exact hrun

end Inv

/-! ## The start -/

/-- The buffers that `binit` has freed so far. -/
structure Freed (s : Disk) (l : List Hdr) : Prop where
  avail : LinkRing s.av_forw s.av_back .bfreelist l
  free : ∀ x ∈ l, (s.b_flags x).b_busy = false
  swbuf : (s.b_flags .swbuf).b_async = false
  idle : s.d_actf = .null ∧ s.d_active = 0 ∧ s.drive.irq = false ∧ s.call = .none ∧ s.log = []

/-- `binit` frees one buffer more. -/
theorem Freed.binitBuf {l : List Hdr} (h : Freed s l) (hbuf : bp.IsBuf) (hbp : bp ∉ l) :
    Freed (s.binitBuf bp) (l ++ [bp]) := by
  have hhead : bp ≠ .bfreelist := by
    rintro rfl
    exact hbuf
  have hsw : Hdr.swbuf ≠ bp := by
    rintro rfl
    exact hbuf
  -- the header is filled in, and the buffer released
  obtain ⟨s₀, hs₀⟩ : ∃ s₀ : Disk, s₀ = Disk.setFlags bp (fun _ => { b_busy := true })
      { s with b_dev := update s.b_dev bp (-1) } := ⟨_, rfl⟩
  have hrun : s.binitBuf bp = (s₀.brelseFlags bp).brelseLinks bp := by
    rw [hs₀]
    rfl
  have hothers : Others bp s (s.binitBuf bp) := by
    rw [hrun]
    refine Others.trans ?_ ((brelseFlags_others bp s₀).trans (brelseLinks_others bp _))
    rw [hs₀]
    exact ⟨fun _ hx _ => update_of_ne hx .., fun _ hx => update_of_ne hx .., fun _ _ => rfl,
      fun _ _ => rfl, rfl, rfl, rfl, rfl⟩
  obtain ⟨hforw, hback, hcall, hlog⟩ := brelseFlags_fields bp s₀
  have hforw₀ : s₀.av_forw = s.av_forw := by rw [hs₀]; rfl
  have hback₀ : s₀.av_back = s.av_back := by rw [hs₀]; rfl
  have hcall₀ : s₀.call = s.call := by rw [hs₀]; rfl
  have hlog₀ : s₀.log = s.log := by rw [hs₀]; rfl
  have hnew : bp ∉ .bfreelist :: l := by
    rw [List.mem_cons]
    exact not_or.mpr ⟨hhead, hbp⟩
  refine ⟨?_, fun x hx => ?_, ?_, ?_⟩
  · have hlinks := h.avail.link_last hnew
    rw [← hforw₀, ← hback₀, ← hforw, ← hback] at hlinks
    rw [hrun]
    exact hlinks
  · rcases List.mem_append.mp hx with hx | hx
    · have hx' : x ≠ .bfreelist := by
        rintro rfl
        exact h.avail.head_notMem hx
      rw [hothers.b_flags x (ne_of_mem_of_not_mem hx hbp) hx']
      exact h.free x hx
    · rw [List.mem_singleton.mp hx, hrun]
      simp [brelseLinks, setFlags]
  · rw [hothers.b_flags _ hsw (by decide)]
    exact h.swbuf
  · rw [hothers.d_actf, hothers.d_active, hothers.toIde]
    have hcall' : (s.binitBuf bp).call = s.call := by
      rw [hrun]
      exact hcall.trans hcall₀
    have hlog' : (s.binitBuf bp).log = s.log := by
      rw [hrun]
      exact hlog.trans hlog₀
    rw [hcall', hlog']
    exact h.idle

/-- `binit` frees the buffers one after another. -/
theorem Freed.foldl {l m : List Hdr} (h : Freed s l) (hnodup : (l ++ m).Nodup)
    (hbuf : ∀ x ∈ m, x.IsBuf) : Freed (m.foldl Disk.binitBuf s) (l ++ m) := by
  induction m generalizing s l with
  | nil => simpa using h
  | cons bp m ih =>
    have hnot : bp ∉ l := fun hmem =>
      List.disjoint_of_nodup_append hnodup hmem List.mem_cons_self
    have hassoc : l ++ bp :: m = (l ++ [bp]) ++ m := by simp
    rw [hassoc] at hnodup ⊢
    exact ih (h.binitBuf (hbuf bp List.mem_cons_self) hnot) hnodup fun x hx =>
      hbuf x (List.mem_cons_of_mem _ hx)

theorem freed_binit (i : Ide) : Freed (zeroed i).binit ((List.finRange NBUF).map .buf) := by
  have hnodup : ([] ++ (List.finRange NBUF).map Hdr.buf).Nodup :=
    (List.nodup_finRange NBUF).map fun m n hmn => Hdr.buf.inj hmn
  have hstart : Freed { zeroed i with
      av_back := update (zeroed i).av_back .bfreelist .bfreelist
      av_forw := update (zeroed i).av_forw .bfreelist .bfreelist } [] :=
    ⟨LinkRing.nil_iff.mpr (by simp), by simp, rfl, rfl, rfl, rfl, rfl, rfl⟩
  -- `binit` releases the buffers one after another
  have hfreed := hstart.foldl hnodup fun x hx => by
    obtain ⟨n, -, rfl⟩ := List.mem_map.mp hx
    trivial
  exact hfreed

theorem inv_binit (i : Ide) : Inv (zeroed i).binit {} ((List.finRange NBUF).map .buf) := by
  have hfreed := freed_binit i
  generalize (zeroed i).binit = s at hfreed ⊢
  obtain ⟨havail, hfree, hsw, hactf, hactive, hirq, hcall, hlog⟩ := hfreed
  refine ⟨⟨⟨?_, havail, fun x => ⟨fun hx => ⟨?_, hfree x hx⟩, fun hx => ?_⟩, by simp, hsw, by simp⟩,
    ?_, by simp, hactive⟩, ⟨hirq, by simp⟩, by simp, ?_, ?_⟩
  · rw [hactf]
    exact LinkQueue.nil
  · obtain ⟨n, -, rfl⟩ := List.mem_map.mp hx
    trivial
  · cases x with
    | buf n => simp
    | _ => exact hx.1.elim
  · rw [hlog]
    rfl
  · rw [CallOk, hcall]
    trivial
  · rw [hlog, hcall]
    rfl

/-! ## The queue of the disk -/

/-- The server that the log is one of, and what it says about the headers. -/
structure InOrder (s : Disk) : Prop where
  /-- Requests are started and completed in the order in which they are accepted, at most one is
  active, and those not completed are in the queue from `d_actf` to `d_actl`. -/
  queue : ∃ srv : Server Req ℕ,
    Server.run Req.sectors (s.log.filterMap Event.served) {} = some srv ∧
    ServerEvent.accepted (s.log.filterMap Event.served) =
      ServerEvent.finished (s.log.filterMap Event.served) ++ srv.queue ∧
    ServerEvent.started (s.log.filterMap Event.served) =
      ServerEvent.finished (s.log.filterMap Event.served) ++ srv.queue.take 1 ∧
    s.d_active = (srv.queue.take 1).length ∧
    LinkQueue s.av_forw .null s.d_actf s.d_actl (srv.queue.map Req.bp)
  /-- A request is completed when all its sectors have been commanded, after those of the requests
  before it. -/
  commands : ∀ es r es', s.log = es ++ .iodone r false :: es' →
    ServerEvent.commanded (es.filterMap Event.served) =
      (ServerEvent.finished (es.filterMap Event.served) ++ [r]).flatMap Req.sectors
  /-- A rejected request is completed with an error before its call goes on, and is not queued. -/
  rejects : rejected s.log = failed s.log ++ s.call.rejects ∧ ∀ bp ∈ s.call.rejects, ¬s.Queued bp
  /-- The interrupts to come complete all that has been accepted. -/
  drains : ∃ n s', runSteps step (List.replicate n .intr) s = some s' ∧
    ServerEvent.finished (s'.log.filterMap Event.served) =
      ServerEvent.accepted (s.log.filterMap Event.served)

theorem Inv.inOrder {srv : Server Req ℕ} (h : Inv s srv la) : InOrder s := by
  have hlog := h.core.log
  -- the log is a run of the server; the order follows from the server's own theorem
  obtain ⟨haccepted, hstarted, -, hqueue⟩ := Server.run_eq hlog
  have hdue : srv.due.isSome ↔ srv.queue ≠ [] := ⟨hqueue, h.running⟩
  have hactive : srv.active = srv.queue.take 1 := by
    rw [Server.active]
    split
    · rfl
    case isFalse hnone =>
      rw [not_not.mp (mt hdue.mpr hnone)]
      rfl
  refine ⟨⟨srv, hlog, haccepted, ?_, ?_, h.core.lists.queue⟩, fun es r es' hes => ?_,
    ⟨h.rejects, fun bp hbp => ?_⟩, ?_⟩
  · rw [hstarted, hactive]
  -- the active flag: set exactly while there is a first request
  · rw [h.core.active, ← hactive, Server.active]
    split
    case isTrue hsome =>
      obtain ⟨r, rest, hq⟩ := List.exists_cons_of_ne_nil (hdue.mp hsome)
      rw [hq]
      rfl
    · rfl
  · -- the log up to there is one of a server, too
    have hsplit : s.log.filterMap Event.served =
        (es.filterMap Event.served ++ [.finish r]) ++ es'.filterMap Event.served := by
      rw [hes, List.filterMap_append, List.append_assoc]
      rfl
    rw [hsplit, Server.run_append] at hlog
    obtain ⟨srv₁, hrun, -⟩ := Option.bind_eq_some_iff.mp hlog
    exact Server.commanded_of_finish hrun
  -- a rejected request is not in the queue
  · have hcall := h.call
    rw [CallOk] at hcall
    rw [Call.rejects.eq_def] at hbp
    split at hbp
    case h_1 bp' hc =>
      rw [hc] at hcall
      rw [List.mem_singleton.mp hbp, h.core.lists.queued_iff]
      exact hcall.1.notMem
    · exact absurd hbp List.not_mem_nil
  -- the drive's interrupts alone empty the queue
  · obtain ⟨s', srv', la', hrun, h', hnil, hkeep⟩ := h.drains
    refine ⟨work srv, s', hrun, ?_⟩
    have hall := (Server.run_eq h'.core.log).1
    rw [hnil, List.append_nil] at hall
    rw [← hall, hkeep]

end Disk

/-- In every run the queue is in order. -/
theorem inv_of_reachable {i : Ide} {s : Disk}
    (h : Reachable step (fun _ _ => True) (Disk.zeroed i).binit s) : ∃ srv la, Disk.Inv s srv la :=
  h.invariant (P := fun s => ∃ srv la, Disk.Inv s srv la) ⟨_, _, Disk.inv_binit i⟩
    fun s a s' hs _ hstep => by
      obtain ⟨srv, la, hs⟩ := hs
      exact hs.step hstep

/-- In every run of calls and interrupts. -/
theorem inOrder_of_reachable {i : Ide} {s : Disk}
    (h : Reachable step (fun _ _ => True) (Disk.zeroed i).binit s) : s.InOrder := by
  obtain ⟨srv, la, hinv⟩ := inv_of_reachable h
  exact hinv.inOrder

/-- A block is read asynchronously and a page is swapped in behind it; a block that the disk does
not have is rejected, and the interrupts come. -/
def readAndSwap : List Act :=
  [.notavail (.buf 0),
    .rkstrategy (.buf 0) { b_busy := true, b_read := true, b_async := true } 0 5 0 512 0, .proceed,
    .rkstrategy .swbuf { b_busy := true, b_read := true, b_phys := true } 0 4000 1 0 16, .proceed,
    .notavail (.buf 1), .rkstrategy (.buf 1) { b_busy := true, b_read := true } 0 4872 0 1024 0,
    .intr, .proceed, .brelse (.buf 1), .intr, .proceed] ++ List.replicate 7 .intr ++ [.swapDone]

/-- An idle disk. -/
def blankIde : Ide where
  mem _ := 0
  drive := ⟨fun _ _ => 0, 0, 0, 0, 0, 0, .idle, false⟩
  io_sector := 0
  io_count := 0
  io_cmd := 0
  io_buf := 0
  io_seg := 0

/-- One request is rejected, and two are completed in order. -/
theorem inOrder_readAndSwap : ∃ s, runSteps step readAndSwap (Disk.zeroed blankIde).binit = some s ∧
    s.InOrder ∧ failed s.log = [.buf 1] ∧
    ServerEvent.finished (s.log.filterMap Event.served) =
      [⟨.buf 0, 5, 1⟩, ⟨.swbuf, 4000, 8⟩] := by
  obtain ⟨s, hs, hend⟩ := (Option.any_eq_true _ _).mp (show
    (runSteps step readAndSwap (Disk.zeroed blankIde).binit).any (fun s =>
      decide (failed s.log = [.buf 1] ∧
        ServerEvent.finished (s.log.filterMap Event.served) =
          [⟨.buf 0, 5, 1⟩, ⟨.swbuf, 4000, 8⟩])) = true
    from by decide +kernel)
  obtain ⟨hfailed, hfinished⟩ := of_decide_eq_true hend
  exact ⟨s, hs, inOrder_of_reachable (Reachable.refl.of_runSteps hs), hfailed, hfinished⟩

end UnixV6.DiskQueue
