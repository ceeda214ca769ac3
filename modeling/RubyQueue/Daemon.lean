/-
  The daemon feeder step by step: `feed`, `start_jobs`, `start_job`, `reap_jobs`, `handle_signal` and
  the trap handlers, with the processes they start.

  `Feeder` has the blocks of the two transactions as whole functions; here every line that changes
  something is a step of its own, because a signal may be delivered between any two of them.  The
  handler then runs to its end: it notes the signal, and when `@children` is empty it leaves at once
  — by `exit`, an exception that skips the commit of the transaction it interrupts, or by `exec`.

  The system consists of the feeder, the processes it has forked (which stop, continue and end as
  they like, and are reported by `waitpid2` with WUNTRACED), and the others on the queue, who change
  the table while the feeder has no transaction open and leave the rows of its children alone.

  A transaction of the feeder can fail: it is rolled back, and either run again from the start of its
  block, with `@children` and the variables as they are then, or it ends the feeder.  An attempt fails
  before its commit here, and the next one follows at once; what others do between two attempts is in
  `System`.
-/
import RubyQueue.Base.Run
import RubyQueue.Children

namespace RubyQueue.Daemon

open RubyQueue.JobQueue RubyQueue.Qdb RubyQueue.Feeder RubyQueue.Run

/-! ## Processes -/

/-- What a process does, and what of it `waitpid2` has reported. -/
inductive ProcState
  | running
  | stopped (reported : Bool)
  | ended (exitstatus : Option Int)
  | reaped
deriving DecidableEq, Repr

/-- A process forked by `JobRunner::new` for a job; `ran`: its command was passed to it by
    `JobRunner#run`. -/
structure Proc where
  pid : Nat
  jid : Nat
  ran : Bool := false
  state : ProcState := .running
deriving DecidableEq, Repr

/-- The process has exited or was killed. -/
def Proc.terminated (p : Proc) : Bool :=
  match p.state with
  | .ended _ => true
  | .reaped => true
  | _ => false

/-- The changes of a process nobody in the feeder makes. -/
def ProcState.moves : ProcState → ProcState → Bool
  | .running, .stopped false => true
  | .running, .ended _ => true
  | .stopped _, .running => true
  | .stopped _, .ended _ => true
  | _, _ => false

theorem ProcState.moves_not_reaped {a b : ProcState} (h : a.moves b = true) :
    a ≠ .reaped ∧ b ≠ .reaped := by
  constructor
  · rintro rfl
    cases b <;> cases h
  · rintro rfl
    cases a <;> cases h

/-- What `waitpid2` with WUNTRACED reports of a process, and the process after it. -/
def Proc.report (p : Proc) : Option (Option Int × Proc) :=
  match p.state with
  | .ended st => some (st, { p with state := .reaped })
  | .stopped false => some (none, { p with state := .stopped true })
  | _ => none

/-! ## The feeder -/

inductive Signal
  | hup | term | int
deriving DecidableEq, Repr

/-- A reported child in the hands of `reap_jobs`: which process it is, and its job. -/
structure Taken where
  proc : Nat
  done : Reaped
deriving DecidableEq, Repr

/-- Where `start_jobs` returns to. -/
inductive Caller
  | feed
  | busywait
  | loop (t : Taken) (loopno : Nat)
deriving DecidableEq, Repr

/-- The next line of the feeder.  `only` is `reap_only`; `n` is the process of a pid. -/
inductive Pc
  | top
  | feed
  | rest
  | starting (k : Caller)
  | forked (k : Caller) (job : Row) (e : Fork) (n : Nat)
  | ran (k : Caller) (job : Row) (e : Fork) (n : Nat)
  | entered (k : Caller) (job : Row) (e : Fork) (n : Nat)
  | waiting (only : Bool)
  | took (only : Bool) (n : Nat) (w : Waited)
  | finished (only : Bool) (t : Taken)
  | recording (only : Bool) (t : Taken) (loopno : Nat)
  | recorded (only : Bool) (t : Taken) (loopno : Nat)
  | deleted (only : Bool) (t : Taken) (loopno : Nat)
  | looping (only : Bool) (t : Taken) (loopno : Nat)
  | tookMore (only : Bool) (n : Nat) (w : Waited) (loopno : Nat)
  | handling
  | gone (restart : Bool)
  | dead
deriving DecidableEq, Repr

/-- A `jobisdone` that was executed: for which process, on which row, and the pid in that row. -/
structure Update where
  proc : Nat
  jid : Nat
  pid : Option String
deriving DecidableEq, Repr

/-- The state.  `work` is the table in the feeder's open transaction.  The last four fields record
    what happened: the updates of the open transaction and those that were committed with their row
    finished, and how many processes there were and children were taken when and since the attempt
    of the transaction began. -/
structure St where
  db : Jobs
  work : Option Jobs := none
  children : Children := ∅
  procs : List Proc := []
  pc : Pc := .top
  signals : List Signal := []
  /-- `handle_signal` is in the branch of SIGHUP -/
  restart : Bool := false
  /-- `finish_job` was called without a job -/
  missing : Bool := false
  pending : List Update := []
  done : List Update := []
  mark : Nat := 0
  takes : Nat := 0

/-- The table as the feeder sees it. -/
def St.tbl (s : St) : Jobs := s.work.getD s.db

/-- `nothing_running?`. -/
def St.nothingRunning (s : St) : Bool := s.children.entries.length = 0

/-- The row of `jid` is finished. -/
def FinishedIn (jobs : Jobs) (jid : Nat) : Prop := ∃ r ∈ jobs.rows, r.jid = jid ∧ r.state = some "finished"

instance (jobs : Jobs) (jid : Nat) : Decidable (FinishedIn jobs jid) :=
  inferInstanceAs (Decidable (∃ r ∈ jobs.rows, _))

instance (jobs : Jobs) (h : Hostname) (cid jid : Nat) : Decidable (Runs jobs h cid jid) :=
  inferInstanceAs (Decidable (∃ r ∈ jobs.rows, _))

/-- The beginning of a transaction. -/
def St.begin (s : St) (pc : Pc) : St :=
  { s with work := some s.db, mark := s.procs.length, takes := 0, pc := pc }

/-- Its commit. -/
def St.commit (s : St) (pc : Pc) : St :=
  { s with
    db := s.tbl
    work := none
    pending := []
    done := s.done ++ s.pending.filter fun u => decide (FinishedIn s.tbl u.jid)
    pc := pc }

/-- Its rollback. -/
def St.rollback (s : St) (pc : Pc) : St := { s with work := none, pending := [], pc := pc }

/-- The rollback of a transaction that is run again. -/
def St.again (s : St) (pc : Pc) : St := { s with pending := [] }.begin pc

/-- The branch `handle_signal` takes: `exec` at its end when there was only a SIGHUP. -/
def onlyHup (signals : List Signal) : Bool := !(signals.contains .term || signals.contains .int)

/-- Where a failed transaction is run again from. -/
def Caller.block : Caller → Pc
  | .loop t _ => .recording false t 0
  | k => .starting k

def Pc.block : Pc → Option Pc
  | .starting k => some k.block
  | .forked k _ _ _ => some k.block
  | .ran k _ _ _ => some k.block
  | .entered k _ _ _ => some k.block
  | .recording only t _ => some (.recording only t 0)
  | .recorded only t _ => some (.recording only t 0)
  | .deleted only t _ => some (.recording only t 0)
  | .looping only t _ => some (.recording only t 0)
  | _ => none

/-! ## Steps -/

structure Config where
  host : Hostname
  maxFeed : Int

/-- `busy?`. -/
def St.busy (cfg : Config) (s : St) : Bool := decide (cfg.maxFeed ≤ s.children.entries.length)

/-- The end of `start_jobs`; called in the block of `reap_jobs` it is not a transaction of its
    own. -/
def St.started (s : St) : Caller → St
  | .feed => s.commit .rest
  | .busywait => s.commit (.waiting false)
  | .loop t loopno => { s with pc := .looping false t loopno }

/-- `job = @children[cid]; finish_job job, status`: without a job it raises. -/
def St.finish (s : St) (w : Waited) (found : Row → St → St) : St :=
  match s.children.lookup w.cid with
  | none => { s.rollback .dead with missing := true }
  | some job => found job { s with children := s.children.insert w.cid (finishJob w job) }

/-- The steps the feeder takes by itself. -/
def tick (cfg : Config) (s : St) : Option St :=
  match s.pc with
  | .top =>
    some (if s.signals.isEmpty then { s with pc := .feed }
      else { s with restart := onlyHup s.signals, pc := .handling })
  | .handling => some { s with pc := if s.nothingRunning then .gone s.restart else .waiting true }
  | .feed => some (if s.busy cfg then { s with pc := .rest } else s.begin (.starting .feed))
  | .rest => some { s with pc := if s.nothingRunning then .top else .waiting false }
  | .starting k =>
    if s.busy cfg || (getjob cfg.host s.tbl).isNone then some (s.started k) else none
  | .forked k job e n =>
    if job.command = none then none
    else some { s with procs := s.procs.modify n fun p => { p with ran := true }, pc := .ran k job e n }
  | .ran k job e n =>
    some { s with children := s.children.insert e.pid (launched cfg.host e job), pc := .entered k job e n }
  | .entered k job e _ =>
    some { s with work := some (jobisrunning (launched cfg.host e job) s.tbl), pc := .starting k }
  | .took only n w => some (s.finish w fun job s => { s with pc := .finished only ⟨n, w, job⟩ })
  | .finished only t => some (s.begin (.recording only t 0))
  | .recording only t loopno =>
    some { s with
      work := some (jobisdone t.done.job s.tbl)
      pending := s.pending ++ [⟨t.proc, t.done.child.jid,
        (s.tbl.rows.find? (·.jid == t.done.child.jid)).bind Row.pid⟩]
      pc := .recorded only t loopno }
  | .recorded only t loopno =>
    some { s with children := s.children.erase t.done.waited.cid, pc := .deleted only t loopno }
  | .deleted only t loopno =>
    some { s with
      pc := if only || !s.signals.isEmpty then .looping only t loopno else .starting (.loop t loopno) }
  | .looping only _ loopno =>
    if s.nothingRunning || decide (42 < loopno) then
      some (s.commit (if only then .handling else .top))
    else none
  | .tookMore only n w loopno =>
    some (s.finish w fun job s =>
      { s with takes := s.takes + 1, pc := .recording only ⟨n, w, job⟩ (loopno + 1) })
  | .waiting _ => none
  | .gone _ => none
  | .dead => none

/-- What can happen next. -/
inductive Label
  | tick
  | fork (pid : Nat) (now : String)
  | report (n : Nat) (finished elapsed : String)
  | nobody
  | start
  | signal (sig : Signal)
  | fail (again : Bool)
  | proc (n : Nat) (state : ProcState)
  | others (jobs : Jobs)

/-- `waitpid2` returns process `n`. -/
def St.report (s : St) (n : Nat) (finished elapsed : String) : Option St :=
  match s.procs[n]? with
  | none => none
  | some p =>
    match p.report with
    | none => none
    | some (status, p') =>
      let s' := { s with procs := s.procs.set n p' }
      let w : Waited := ⟨p.pid, status, finished, elapsed⟩
      match s.pc with
      | .waiting only => some { s' with pc := .took only n w }
      | .looping only _ loopno =>
        if s.nothingRunning || decide (42 < loopno) then none
        else some { s' with pc := .tookMore only n w loopno }
      | _ => none

/-- Every process was reaped: `waitpid2` raises ECHILD. -/
def St.childless (s : St) : Bool := s.procs.all fun p => p.state == .reaped

/-- One step; `none` when it cannot happen. -/
def step (cfg : Config) (s : St) : Label → Option St
  | .tick => Daemon.tick cfg s
  | .fork pid now =>
    match s.pc with
    | .starting k =>
      match getjob cfg.host s.tbl with
      | none => none
      | some job =>
        if s.busy cfg || s.procs.any (fun p => p.state != .reaped && p.pid == pid) then none
        else some { s with
          procs := s.procs ++ [{ pid := pid, jid := job.jid }]
          pc := .forked k job { pid := pid, now := now } s.procs.length }
    | _ => none
  | .report n finished elapsed => s.report n finished elapsed
  | .nobody =>
    match s.pc with
    | .looping only _ loopno =>
      if s.nothingRunning || decide (42 < loopno) || s.procs.any (fun p => p.report.isSome) then none
      else if s.childless then some (s.rollback .dead)
      else some (s.commit (if only then .handling else .top))
    | .waiting _ => if s.childless then some (s.rollback .dead) else none
    | _ => none
  | .start =>
    match s.pc with
    | .waiting false =>
      if s.busy cfg || !s.signals.isEmpty then none else some (s.begin (.starting .busywait))
    | _ => none
  | .signal sig =>
    match s.pc with
    | .gone _ => none
    | .dead => none
    | _ =>
      let s := { s with signals := sig :: s.signals }
      some (if s.nothingRunning then s.rollback (.gone (onlyHup s.signals)) else s)
  | .fail again =>
    if s.work.isNone then none
    else
      match s.pc.block with
      | none => none
      | some pc =>
        some (if again then s.again pc else s.rollback .dead)
  | .proc n state =>
    match s.procs[n]? with
    | none => none
    | some p => if p.state.moves state then some { s with procs := s.procs.set n { p with state := state } }
      else none
  | .others jobs =>
    if s.work.isSome || !s.children.entries.all (fun c => decide (Runs jobs cfg.host c.1 c.2.jid)) then
      none
    else some { s with db := jobs }

/-! ## What a step of each kind is -/

section Cases

variable {cfg : Config} {s t : St}

theorem nothingRunning_iff : s.nothingRunning = true ↔ s.children.entries = [] := by
  unfold St.nothingRunning
  rw [decide_eq_true_iff, List.length_eq_zero_iff]

theorem step_fork {pid : Nat} {now : String} (ht : step cfg s (.fork pid now) = some t) :
    ∃ k job, s.pc = .starting k ∧ getjob cfg.host s.tbl = some job ∧
      (∀ p ∈ s.procs, p.state ≠ .reaped → p.pid ≠ pid) ∧
      t = { s with procs := s.procs ++ [{ pid := pid, jid := job.jid }],
                   pc := .forked k job { pid := pid, now := now } s.procs.length } := by
  simp only [step] at ht
  split at ht
  case h_2 => cases ht
  case h_1 k hpc =>
    split at ht
    · cases ht
    · rename_i job hjob
      split at ht
      · cases ht
      · rename_i hfree
        refine ⟨k, job, hpc, hjob, ?_, (Option.some.inj ht).symm⟩
        intro p hp hst hpid
        apply hfree
        rw [Bool.or_eq_true]
        exact .inr (List.any_eq_true.mpr ⟨p, hp, by simp [hst, hpid]⟩)

theorem step_report {n : Nat} {f e : String} (ht : step cfg s (.report n f e) = some t) :
    ∃ p p' status, s.procs[n]? = some p ∧ p.report = some (status, p') ∧
      ((∃ only, s.pc = .waiting only ∧
          t = { s with procs := s.procs.set n p', pc := .took only n ⟨p.pid, status, f, e⟩ }) ∨
       (∃ only c loopno, s.pc = .looping only c loopno ∧
          t = { s with procs := s.procs.set n p',
                       pc := .tookMore only n ⟨p.pid, status, f, e⟩ loopno })) := by
  have ht : s.report n f e = some t := ht
  unfold St.report at ht
  split at ht
  · cases ht
  · rename_i p hn
    split at ht
    · cases ht
    · rename_i status p' hp
      refine ⟨p, p', status, hn, hp, ?_⟩
      dsimp only at ht
      split at ht
      · rename_i only hpc
        exact .inl ⟨only, hpc, (Option.some.inj ht).symm⟩
      · rename_i only c loopno hpc
        split at ht
        · cases ht
        · exact .inr ⟨only, c, loopno, hpc, (Option.some.inj ht).symm⟩
      · cases ht

/-- `waitpid2` returns nothing, or raises. -/
theorem step_nobody (ht : step cfg s .nobody = some t) :
    (∃ only c loopno, s.pc = .looping only c loopno ∧ t = s.commit (if only then .handling else .top)) ∨
      (t = s.rollback .dead ∧ s.childless = true ∧
        ((∃ only, s.pc = .waiting only) ∨
          ∃ only c loopno, s.pc = .looping only c loopno ∧ s.nothingRunning = false)) := by
  simp only [step] at ht
  split at ht
  · rename_i only c loopno hpc
    split at ht
    · cases ht
    · rename_i hloop
      split at ht
      · rename_i hnone
        have hrun : s.nothingRunning = false := by
          simp only [Bool.or_eq_true, not_or] at hloop
          simpa using hloop.1.1
        exact .inr ⟨(Option.some.inj ht).symm, hnone, .inr ⟨only, c, loopno, hpc, hrun⟩⟩
      · exact .inl ⟨only, c, loopno, hpc, (Option.some.inj ht).symm⟩
  · rename_i only hpc
    split at ht
    · rename_i hnone
      exact .inr ⟨(Option.some.inj ht).symm, hnone, .inl ⟨only, hpc⟩⟩
    · cases ht
  · cases ht

theorem step_start (ht : step cfg s .start = some t) :
    s.pc = .waiting false ∧ t = s.begin (.starting .busywait) := by
  simp only [step] at ht
  split at ht
  · rename_i hpc
    split at ht
    · cases ht
    · exact ⟨hpc, (Option.some.inj ht).symm⟩
  · cases ht

/-- A trap handler. -/
theorem step_signal {sig : Signal} (ht : step cfg s (.signal sig) = some t) :
    (∀ restart, s.pc ≠ .gone restart) ∧ s.pc ≠ .dead ∧
      ((s.children.entries = [] ∧
          t = { s with signals := sig :: s.signals, work := none, pending := [],
                       pc := .gone (onlyHup (sig :: s.signals)) }) ∨
        t = { s with signals := sig :: s.signals }) := by
  simp only [step] at ht
  split at ht
  · cases ht
  · cases ht
  · rename_i hgone hdead
    refine ⟨hgone, hdead, ?_⟩
    obtain rfl := Option.some.inj ht
    split
    · rename_i hnone
      exact .inl ⟨nothingRunning_iff.mp hnone, rfl⟩
    · exact .inr rfl

theorem step_fail {again : Bool} (ht : step cfg s (.fail again) = some t) :
    ∃ pc, s.pc.block = some pc ∧ t = if again then s.again pc else s.rollback .dead := by
  simp only [step] at ht
  split at ht
  · cases ht
  · split at ht
    · cases ht
    · rename_i pc hb
      exact ⟨pc, hb, (Option.some.inj ht).symm⟩

theorem step_proc {n : Nat} {st : ProcState} (ht : step cfg s (.proc n st) = some t) :
    ∃ p, s.procs[n]? = some p ∧ p.state.moves st = true ∧
      t = { s with procs := s.procs.set n { p with state := st } } := by
  simp only [step] at ht
  split at ht
  · cases ht
  · rename_i p hn
    split at ht
    · rename_i hmove
      exact ⟨p, hn, hmove, (Option.some.inj ht).symm⟩
    · cases ht

theorem step_others {jobs : Jobs} (ht : step cfg s (.others jobs) = some t) :
    s.work = none ∧ (∀ c job, s.children.lookup c = some job → Runs jobs cfg.host c job.jid) ∧
      t = { s with db := jobs } := by
  simp only [step] at ht
  split at ht
  · cases ht
  · rename_i hfree
    obtain ⟨hwork, hruns⟩ : s.work = none ∧
        ∀ (c : Nat) (job : Row), ⟨c, job⟩ ∈ s.children.entries → Runs jobs cfg.host c job.jid := by
      simpa using hfree
    exact ⟨hwork, fun c job hl => hruns c job (AList.mem_lookup_iff.mp hl), (Option.some.inj ht).symm⟩

end Cases

end RubyQueue.Daemon
