/-
  Any number of feeders and clients on one queue.

  The queue lock is exclusive, so the ATTEMPTS of transactions are serialised: a step of the system
  is one attempt of a feeder's transaction, one transaction of a client, the first `waitpid2` of a
  `reap_jobs`, or a feeder crashing or coming back.  Between an attempt that failed and the next
  attempt of the same transaction anybody else may take a step.

  A step rolled back leaves the table as it was; what it did to `@children` and to the variables of
  `reap_jobs` stays (`Qdb.attempt_spec`).  The history of the system records each call of
  `JobRunner#run` and each moment at which a job comes to wait for a feeder.
-/
import Mathlib.Logic.Function.Basic
import RubyQueue.Base.Run
import RubyQueue.Clients
import RubyQueue.Children

namespace RubyQueue.System

open RubyQueue.JobQueue RubyQueue.Qdb RubyQueue.Feeder RubyQueue.Run

variable {ι : Type} [DecidableEq ι]

/-! ## States -/

/-- The feeders of a queue, on distinct hosts. -/
structure Config (ι : Type) where
  host : ι → Hostname
  distinct : Function.Injective host
  maxFeed : ι → Int
  /-- `@transaction_retries` -/
  retries : ι → Nat := fun _ => 4
  sqlite : OtherSql := fun _ _ => .error "SQL error"

/-- Where a feeder is.  `errors` attempts of its current transaction have failed. -/
inductive Phase
  | idle
  | starting (errors : Nat)
  | reaping (reapOnly : Bool) (errors : Nat)
  | dead
deriving DecidableEq, Repr

/-- A feeder; `vars` are the variables of its last call of `reap_jobs`. -/
structure Member where
  own : Own := {}
  vars : Vars := { cid := none, job := none }
  phase : Phase := .idle

/-- What the history records. -/
inductive Event
  | enter (jid : Nat)
  | run (jid : Nat)
deriving DecidableEq, Repr

structure State (ι : Type) where
  jobs : Jobs
  feeder : ι → Member := fun _ => {}
  history : List Event := []

/-- What can happen next. -/
inductive Label (ι : Type)
  | client (c : Client)
  | start (i : ι) (a : Attempt (List Fork))
  | wait (i : ι) (reapOnly : Bool) (w : Waited)
  | reap (i : ι) (a : Attempt (List Turn))
  | crash (i : ι)
  | restart (i : ι) (started : String)

/-! ## Events -/

/-- Some row of this jid waits for a feeder. -/
def Eligible (jobs : Jobs) (jid : Nat) : Prop := ∃ r ∈ jobs, r.jid = jid ∧ eligible r = true

instance (jobs : Jobs) (jid : Nat) : Decidable (Eligible jobs jid) :=
  inferInstanceAs (Decidable (∃ r ∈ jobs.rows, r.jid = jid ∧ eligible r = true))

/-- The jids that come to wait for a feeder when `jobs` becomes `jobs'`. -/
def entered (jobs jobs' : Jobs) : List Nat :=
  (jobs'.rows.map Row.jid).filter fun jid =>
    decide (Eligible jobs' jid) && !decide (Eligible jobs jid)

/-- The calls of `JobRunner#run` made between two states of a feeder. -/
def launchedSince (o o' : Own) : List Nat :=
  (o'.launches.drop o.launches.length).map Launch.jid

/-- The history after a step. -/
def extend (history : List Event) (ran : List Nat) (jobs jobs' : Jobs) : List Event :=
  history ++ ran.map .run ++ (entered jobs jobs').map .enter

/-! ## Steps -/

/-- An attempt of the transaction of `start_jobs`. -/
def startAttempt (cfg : Config ι) (s : State ι) (i : ι) (a : Attempt (List Fork)) :
    Qdb.State Jobs Own × Option Err :=
  attempt (startBody (cfg.host i) (cfg.maxFeed i)) a { db := s.jobs, priv := (s.feeder i).own }

/-- An attempt of the transaction of `reap_jobs`. -/
def reapAttempt (cfg : Config ι) (s : State ι) (i : ι) (reapOnly : Bool) (a : Attempt (List Turn)) :
    Qdb.State Jobs (Own × Vars) × Option Err :=
  attempt (reapBody (cfg.host i) (cfg.maxFeed i) reapOnly) a
    { db := s.jobs, priv := ((s.feeder i).own, (s.feeder i).vars) }

/-- Where an attempt takes a feeder: back to its loop, to a retry, or out. -/
def Phase.after (retries errors : Nat) (retry : Nat → Phase) : Option Err → Phase
  | none => .idle
  | some e => if retriesAfter retries errors e then retry (errors + 1) else .dead

/-- `start_jobs` of feeder `i` after `errors` failed attempts. -/
def State.start (cfg : Config ι) (s : State ι) (i : ι) (errors : Nat) (a : Attempt (List Fork)) :
    State ι :=
  let m := s.feeder i
  let r := startAttempt cfg s i a
  { jobs := r.1.db
    feeder := Function.update s.feeder i
      { m with own := r.1.priv, phase := Phase.after (cfg.retries i) errors .starting r.2 }
    history := extend s.history (launchedSince m.own r.1.priv) s.jobs r.1.db }

/-- `reap_jobs` of feeder `i` after `errors` failed attempts. -/
def State.reap (cfg : Config ι) (s : State ι) (i : ι) (reapOnly : Bool) (errors : Nat)
    (a : Attempt (List Turn)) : State ι :=
  let m := s.feeder i
  let r := reapAttempt cfg s i reapOnly a
  { jobs := r.1.db
    feeder := Function.update s.feeder i
      { own := r.1.priv.1, vars := r.1.priv.2,
        phase := Phase.after (cfg.retries i) errors (.reaping reapOnly) r.2 }
    history := extend s.history (launchedSince m.own r.1.priv.1) s.jobs r.1.db }

/-- The first `waitpid2` of a `reap_jobs`, and `finish_job` of the child it returns. -/
def State.wait (s : State ι) (i : ι) (reapOnly : Bool) (w : Waited) : State ι :=
  let m := s.feeder i
  { s with
    feeder := Function.update s.feeder i
      (match takeChild w m.own { cid := none, job := none } with
        | ((o, v), none) => { own := o, vars := v, phase := .reaping reapOnly 0 }
        | ((o, v), some _) => { own := o, vars := v, phase := .dead }) }

/-- One step; `none` when it is not enabled. -/
def step (cfg : Config ι) (s : State ι) : Label ι → Option (State ι)
  | .client c =>
    match c.exec cfg.sqlite s.jobs with
    | .ok jobs => some { s with jobs := jobs, history := extend s.history [] s.jobs jobs }
    | .error _ => none
  | .start i a =>
    match (s.feeder i).phase with
    | .idle => some (s.start cfg i 0 a)
    | .starting errors => some (s.start cfg i errors a)
    | _ => none
  | .wait i reapOnly w =>
    match (s.feeder i).phase with
    | .idle => some (s.wait i reapOnly w)
    | _ => none
  | .reap i a =>
    match (s.feeder i).phase with
    | .reaping reapOnly errors => some (s.reap cfg i reapOnly errors a)
    | _ => none
  | .crash i =>
    some { s with feeder := Function.update s.feeder i { s.feeder i with phase := .dead } }
  | .restart i started =>
    match (s.feeder i).phase with
    | .dead =>
      let jobs := fillMorgue (cfg.host i) started s.jobs
      some { jobs := jobs, feeder := Function.update s.feeder i {},
             history := extend s.history [] s.jobs jobs }
    | _ => none

/-- **What a step can do**, one case for each label. -/
theorem step_cases {cfg : Config ι} {s t : State ι} {l : Label ι} (h : step cfg s l = some t) :
    (∃ c jobs, l = .client c ∧ c.exec cfg.sqlite s.jobs = .ok jobs ∧
      t = { s with jobs := jobs, history := extend s.history [] s.jobs jobs }) ∨
    (∃ i a errors, l = .start i a ∧
      ((s.feeder i).phase = .idle ∨ (s.feeder i).phase = .starting errors) ∧
      t = s.start cfg i errors a) ∨
    (∃ i reapOnly w, l = .wait i reapOnly w ∧ (s.feeder i).phase = .idle ∧
      t = s.wait i reapOnly w) ∨
    (∃ i a reapOnly errors, l = .reap i a ∧ (s.feeder i).phase = .reaping reapOnly errors ∧
      t = s.reap cfg i reapOnly errors a) ∨
    (∃ i, l = .crash i ∧
      t = { s with feeder := Function.update s.feeder i { s.feeder i with phase := .dead } }) ∨
    (∃ i started, l = .restart i started ∧ (s.feeder i).phase = .dead ∧
      t = { jobs := fillMorgue (cfg.host i) started s.jobs,
            feeder := Function.update s.feeder i {},
            history := extend s.history [] s.jobs (fillMorgue (cfg.host i) started s.jobs) }) := by
  cases l with
  | client c =>
    simp only [step] at h
    split at h
    · rename_i jobs hc
      cases h
      exact Or.inl ⟨c, jobs, rfl, hc, rfl⟩
    · cases h
  | start i a =>
    simp only [step] at h
    split at h
    · rename_i hp
      cases h
      exact Or.inr (Or.inl ⟨i, a, 0, rfl, Or.inl hp, rfl⟩)
    · rename_i errors hp
      cases h
      exact Or.inr (Or.inl ⟨i, a, errors, rfl, Or.inr hp, rfl⟩)
    · cases h
  | wait i reapOnly w =>
    simp only [step] at h
    split at h
    · rename_i hp
      cases h
      exact Or.inr (Or.inr (Or.inl ⟨i, reapOnly, w, rfl, hp, rfl⟩))
    · cases h
  | reap i a =>
    simp only [step] at h
    split at h
    · rename_i reapOnly errors hp
      cases h
      exact Or.inr (Or.inr (Or.inr (Or.inl ⟨i, a, reapOnly, errors, rfl, hp, rfl⟩)))
    · cases h
  | crash i =>
    simp only [step, Option.some.injEq] at h
    exact Or.inr (Or.inr (Or.inr (Or.inr (Or.inl ⟨i, rfl, h.symm⟩))))
  | restart i started =>
    simp only [step] at h
    split at h
    · rename_i hp
      cases h
      exact Or.inr (Or.inr (Or.inr (Or.inr (Or.inr ⟨i, started, rfl, hp, rfl⟩))))
    · cases h

/-- A queue on which every feeder has just been started. -/
def Initial (s : State ι) : Prop := (∀ i, s.feeder i = {}) ∧ s.history = []

/-! ## Does an attempt commit? -/

/-- The attempt of `start_jobs` commits. -/
def startCommits (cfg : Config ι) (s : State ι) (i : ι) (a : Attempt (List Fork)) : Bool :=
  a.commits (startJobs (cfg.host i) (cfg.maxFeed i) a.script s.jobs (s.feeder i).own).2

/-- The attempt of `reap_jobs` commits. -/
def reapCommits (cfg : Config ι) (s : State ι) (i : ι) (reapOnly : Bool)
    (a : Attempt (List Turn)) : Bool :=
  a.commits (reapLoop (cfg.host i) (cfg.maxFeed i) reapOnly a.script 0 s.jobs
    ((s.feeder i).own, (s.feeder i).vars)).2

omit [DecidableEq ι] in
/-- A committed attempt of `start_jobs` is a block that returned. -/
theorem startAttempt_committed {cfg : Config ι} {s : State ι} {i : ι} {a : Attempt (List Fork)}
    (hc : startCommits cfg s i a = true) :
    startJobs (cfg.host i) (cfg.maxFeed i) a.script s.jobs (s.feeder i).own
      = (((startAttempt cfg s i a).1.db, (startAttempt cfg s i a).1.priv), none) := by
  rcases attempt_cases (startBody (cfg.host i) (cfg.maxFeed i)) a
    { db := s.jobs, priv := (s.feeder i).own } with ⟨-, hnone, hdb, hpriv⟩ | ⟨hno, -⟩
  · exact Prod.ext (Prod.ext hdb.symm hpriv.symm) hnone
  · exact absurd (hc.symm.trans hno) (by simp)

omit [DecidableEq ι] in
/-- One that is rolled back leaves the table, but not always the feeder. -/
theorem startAttempt_rolledBack {cfg : Config ι} {s : State ι} {i : ι} {a : Attempt (List Fork)}
    (hc : startCommits cfg s i a = false) :
    (startAttempt cfg s i a).1.db = s.jobs ∧
    ((startAttempt cfg s i a).1.priv = (s.feeder i).own ∨
     (startAttempt cfg s i a).1.priv
       = (startJobs (cfg.host i) (cfg.maxFeed i) a.script s.jobs (s.feeder i).own).1.2) := by
  rcases attempt_cases (startBody (cfg.host i) (cfg.maxFeed i)) a
    { db := s.jobs, priv := (s.feeder i).own } with ⟨hyes, -⟩ | ⟨-, hdb, hpriv⟩
  · exact absurd (hc.symm.trans hyes) (by simp)
  · exact ⟨hdb, hpriv⟩

omit [DecidableEq ι] in
theorem reapAttempt_committed {cfg : Config ι} {s : State ι} {i : ι} {reapOnly : Bool}
    {a : Attempt (List Turn)} (hc : reapCommits cfg s i reapOnly a = true) :
    reapLoop (cfg.host i) (cfg.maxFeed i) reapOnly a.script 0 s.jobs
        ((s.feeder i).own, (s.feeder i).vars)
      = (((reapAttempt cfg s i reapOnly a).1.db, (reapAttempt cfg s i reapOnly a).1.priv), none) := by
  rcases attempt_cases (reapBody (cfg.host i) (cfg.maxFeed i) reapOnly) a
    { db := s.jobs, priv := ((s.feeder i).own, (s.feeder i).vars) }
    with ⟨-, hnone, hdb, hpriv⟩ | ⟨hno, -⟩
  · exact Prod.ext (Prod.ext hdb.symm hpriv.symm) hnone
  · exact absurd (hc.symm.trans hno) (by simp)

omit [DecidableEq ι] in
theorem reapAttempt_rolledBack {cfg : Config ι} {s : State ι} {i : ι} {reapOnly : Bool}
    {a : Attempt (List Turn)} (hc : reapCommits cfg s i reapOnly a = false) :
    (reapAttempt cfg s i reapOnly a).1.db = s.jobs ∧
    ((reapAttempt cfg s i reapOnly a).1.priv = ((s.feeder i).own, (s.feeder i).vars) ∨
     (reapAttempt cfg s i reapOnly a).1.priv
       = (reapLoop (cfg.host i) (cfg.maxFeed i) reapOnly a.script 0 s.jobs
           ((s.feeder i).own, (s.feeder i).vars)).1.2) := by
  rcases attempt_cases (reapBody (cfg.host i) (cfg.maxFeed i) reapOnly) a
    { db := s.jobs, priv := ((s.feeder i).own, (s.feeder i).vars) }
    with ⟨hyes, -⟩ | ⟨-, hdb, hpriv⟩
  · exact absurd (hc.symm.trans hyes) (by simp)
  · exact ⟨hdb, hpriv⟩

end RubyQueue.System
