import Mathlib

/-!
# A server that takes requests in order

Requests are accepted into a queue. The first one is started, its parts are commanded one after
another, and when there are none left it is finished and leaves the queue; at most one request is
started at a time. `run` says whether a log of such events is one of a server, and what is left at
its end. From any such log the three lists of the requests accepted, started and finished, and that
of the commands, can be read off: each continues the next one.
-/

variable {ρ κ : Type*}

/-- What a server does. -/
inductive ServerEvent (ρ κ : Type*)
  | accept (r : ρ)
  | start (r : ρ)
  | command (k : κ)
  | finish (r : ρ)

/-- The requests not yet finished, and the commands still due for the first one, if it has been
started. -/
structure Server (ρ κ : Type*) where
  queue : List ρ := []
  due : Option (List κ) := none

namespace Server

variable [DecidableEq ρ] [DecidableEq κ] {parts : ρ → List κ} {s s' : Server ρ κ}

/-- `none` is an event that must not happen. -/
def next (parts : ρ → List κ) (s : Server ρ κ) : ServerEvent ρ κ → Option (Server ρ κ)
  | .accept r => some { s with queue := s.queue ++ [r] }
  | .start r =>
    if s.due = none ∧ s.queue.head? = some r then some { s with due := some (parts r) } else none
  | .command k =>
    match s.due with
    | some (k' :: ks) => if k = k' then some { s with due := some ks } else none
    | _ => none
  | .finish r =>
    if s.due = some [] ∧ s.queue.head? = some r then some { queue := s.queue.tail, due := none }
    else none

/-- The server after a log. -/
def run (parts : ρ → List κ) (log : List (ServerEvent ρ κ)) (s : Server ρ κ) :
    Option (Server ρ κ) :=
  log.foldlM (next parts) s

/-- A run of two logs is the run of the first, then of the second. -/
theorem run_append (log log' : List (ServerEvent ρ κ)) :
    run parts (log ++ log') s = (run parts log s).bind (run parts log') :=
  List.foldlM_append

/-- A run with one more event at its end. -/
theorem run_concat (log : List (ServerEvent ρ κ)) (e : ServerEvent ρ κ) :
    run parts (log ++ [e]) s = (run parts log s).bind fun s' => next parts s' e := by
  rw [run_append]
  congr 1
  ext1 s'
  simp only [run, List.foldlM_cons, List.foldlM_nil]
  exact bind_pure _

end Server

namespace ServerEvent

/-- The requests accepted. -/
def accepted (log : List (ServerEvent ρ κ)) : List ρ :=
  log.filterMap fun | .accept r => some r | _ => none

/-- The requests started. -/
def started (log : List (ServerEvent ρ κ)) : List ρ :=
  log.filterMap fun | .start r => some r | _ => none

/-- The commands given. -/
def commanded (log : List (ServerEvent ρ κ)) : List κ :=
  log.filterMap fun | .command k => some k | _ => none

/-- The requests finished. -/
def finished (log : List (ServerEvent ρ κ)) : List ρ :=
  log.filterMap fun | .finish r => some r | _ => none

end ServerEvent

namespace Server

open ServerEvent

variable [DecidableEq ρ] [DecidableEq κ] {parts : ρ → List κ} {s s' : Server ρ κ}

/-- The first request, once it has been started. -/
def active (s : Server ρ κ) : List ρ := if s.due.isSome then s.queue.take 1 else []

/-- Requests are finished in the order in which they are accepted, and what has been accepted but
not finished is in the queue. They are started in this order, at most one ahead of those finished,
and the commands are those of the started ones, up to those still due. -/
theorem run_eq {log : List (ServerEvent ρ κ)} (h : run parts log {} = some s) :
    accepted log = finished log ++ s.queue ∧ started log = finished log ++ s.active ∧
      commanded log ++ s.due.getD [] = (started log).flatMap parts ∧
      (s.due.isSome → s.queue ≠ []) := by
  -- induction on the log, event by event at its end
  induction log using List.reverseRecOn generalizing s with
  | nil =>
    obtain rfl := Option.some.inj h
    exact ⟨rfl, rfl, rfl, fun hdue => absurd hdue (by simp)⟩
  | append_singleton log e ih =>
    -- the state before the last event
    rw [run_concat] at h
    obtain ⟨s₀, hs₀, h⟩ := Option.bind_eq_some_iff.mp h
    obtain ⟨haccepted, hstarted, hcommanded, hqueue⟩ := ih hs₀
    simp only [accepted, started, commanded, finished, active, List.filterMap_append] at *
    rw [haccepted, hstarted]
    cases e with
    | accept r =>
      rw [← Option.some.inj h]
      refine ⟨by simp, ?_, ?_, fun _ => by simp⟩
      · -- an active request stays the first one
        cases hdue : s₀.due with
        | none => simp
        | some ks =>
          obtain ⟨r₀, q, hq⟩ := List.exists_cons_of_ne_nil (hqueue (by rw [hdue]; rfl))
          simp [hq]
      · rw [hstarted] at hcommanded
        simpa using hcommanded
    -- the request that is started is the head of the queue
    | start r =>
      obtain ⟨⟨hdue, hhead⟩, h⟩ := Option.ite_none_right_eq_some.mp h
      obtain ⟨q, hq⟩ := List.head?_eq_some_iff.mp hhead
      rw [← Option.some.inj h]
      rw [hstarted, hdue] at hcommanded
      refine ⟨by simp, by simp [hdue, hq], ?_, fun _ => by simp [hq]⟩
      simp at hcommanded
      simp [hdue, hcommanded]
    -- the next part in turn is commanded
    | command k =>
      rw [hstarted] at hcommanded
      rw [next] at h
      split at h
      case h_1 k' ks hdue =>
        obtain ⟨rfl, hs⟩ := Option.ite_none_right_eq_some.mp h
        rw [← Option.some.inj hs]
        rw [hdue] at hcommanded hqueue
        refine ⟨by simp, by simp [hdue], ?_, fun _ => hqueue rfl⟩
        simpa [hdue] using hcommanded
      case h_2 => exact absurd h (by simp)
    -- all parts are done, and the request leaves the queue
    | finish r =>
      obtain ⟨⟨hdue, hhead⟩, h⟩ := Option.ite_none_right_eq_some.mp h
      obtain ⟨q, hq⟩ := List.head?_eq_some_iff.mp hhead
      rw [← Option.some.inj h]
      rw [hstarted, hdue] at hcommanded
      refine ⟨by simp [hq], by simp [hdue, hq], ?_, fun hnone => absurd hnone (by simp)⟩
      simpa [hdue, hq] using hcommanded

/-- A request is finished when all its commands have been given, and those of the requests before
it. -/
theorem commanded_of_finish {log : List (ServerEvent ρ κ)} {r : ρ}
    (h : run parts (log ++ [.finish r]) {} = some s) :
    commanded log = (finished log ++ [r]).flatMap parts := by
  rw [run_concat] at h
  obtain ⟨s₀, hs₀, h⟩ := Option.bind_eq_some_iff.mp h
  obtain ⟨⟨hdue, hhead⟩, -⟩ := Option.ite_none_right_eq_some.mp h
  obtain ⟨q, hq⟩ := List.head?_eq_some_iff.mp hhead
  obtain ⟨-, hstarted, hcommanded, -⟩ := run_eq hs₀
  have hactive : s₀.active = [r] := by
    rw [active, hdue, hq]
    rfl
  rw [hdue, Option.getD_some, List.append_nil, hstarted, hactive] at hcommanded
  exact hcommanded

end Server
