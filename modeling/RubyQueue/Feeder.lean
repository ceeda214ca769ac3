/-
  The feeder (`lib/rq/feeder.rb`): `start_jobs`, `start_job`, `finish_job`, `reap_jobs`.

  A feeder owns `@children`, a hash from the pid of a child to the job it runs.  It is changed
  INSIDE transaction blocks, together with the table, but it is not part of the database: a
  rollback does not restore it, nor does it undo a `JobRunner#run` or a `waitpid2`.  The blocks are
  therefore functions

      Jobs → Own → (Jobs × Own) × Option Err

  that return how far they got also when they raise.  What the environment decides (pids, clocks,
  which call raises, which child `waitpid2` returns, signals) comes in scripts, one entry for each
  turn of the loop; a script that is used up stands for a call that raises.
-/
import Mathlib.Data.List.AList
import RubyQueue.Schedule
import RubyQueue.Transaction

namespace RubyQueue.Feeder

open RubyQueue.JobQueue RubyQueue.Qdb

/-! ## State -/

/-- `@children`. -/
abbrev Children := AList fun _ : Nat => Row

/-- One call of `JobRunner#run`. -/
structure Launch where
  jid : Nat
  pid : Nat
  /-- the pid was a key of `@children` already -/
  reused : Bool
deriving DecidableEq, Repr

/-- What a feeder has besides the database.  `launches` is a record of the calls of
    `JobRunner#run`, oldest first. -/
structure Own where
  children : Children := ∅
  launches : List Launch := []

/-! ## `start_jobs` -/

/-- Which call of `start_job` raises. -/
inductive ForkFault
  | runner
  | run
  | jobisrunning
deriving DecidableEq, Repr

/-- What the environment decides in one `start_job`. -/
structure Fork where
  pid : Nat
  now : String
  fault : Option ForkFault := none
deriving DecidableEq, Repr

/-- The job as `start_job` hands it to the runner: "we setup state slightly prematurely". -/
def prepared (h : Hostname) (now : String) (job : Row) : Row :=
  { job with state := some "running", started := some now, runner := some h.name,
             stdout := some (stdout4 job.jid), stderr := some (stderr4 job.jid) }

/-- `Feeder#start_job`.  A job whose command is NULL makes `JobRunner#run` raise. -/
def startJob (h : Hostname) (job : Row) (e : Fork) (jobs : Jobs) (o : Own) :
    (Jobs × Own) × Option Err :=
  let job := prepared h e.now job
  if e.fault = some .runner then ((jobs, o), some .standard)
  else
    let o := { o with launches := o.launches ++ [⟨job.jid, e.pid, decide (e.pid ∈ o.children)⟩] }
    if e.fault = some .run ∨ job.command = none then ((jobs, o), some .standard)
    else
      let job := { job with pid := some (toString e.pid) }
      let o := { o with children := o.children.insert e.pid job }
      if e.fault = some .jobisrunning then ((jobs, o), some .standard)
      else ((jobisrunning job jobs, o), none)

/-- `Feeder#busy?`. -/
def busy (maxFeed : Int) (o : Own) : Bool := decide (maxFeed ≤ o.children.entries.length)

/-- The block of `Feeder#start_jobs`. -/
def startJobs (h : Hostname) (maxFeed : Int) (script : List Fork) (jobs : Jobs) (o : Own) :
    (Jobs × Own) × Option Err :=
  if busy maxFeed o then ((jobs, o), none)
  else
    match getjob h jobs with
    | none => ((jobs, o), none)
    | some job =>
      match script with
      | [] => ((jobs, o), some .standard)
      | e :: script =>
        match startJob h job e jobs o with
        | ((jobs, o), none) => startJobs h maxFeed script jobs o
        | r => r

/-! ## `reap_jobs` -/

/-- What `waitpid2` returns for a child, and the clock readings `finish_job` makes of it. -/
structure Waited where
  cid : Nat
  exitstatus : Option Int
  finished : String
  elapsed : String
deriving DecidableEq, Repr

/-- `Feeder#finish_job`. -/
def finishJob (w : Waited) (job : Row) : Row :=
  { job with finished := some w.finished, elapsed := some w.elapsed,
             exitStatus := w.exitstatus.map toString, state := some "finished" }

/-- A child that was waited for, and the job it ran. -/
structure Reaped where
  waited : Waited
  child : Row
deriving DecidableEq, Repr

/-- The job after `finish_job`. -/
def Reaped.job (r : Reaped) : Row := finishJob r.waited r.child

/-- The variables of a call of `reap_jobs` that its block shares with the attempts before it.
    `reaped` holds the jobs, the source the pids; `taken` counts the children its inner `waitpid2`
    returned. -/
structure Vars where
  cid : Option Nat
  job : Option Reaped
  reaped : List Reaped := []
  taken : Nat := 0

/-- The inner `waitpid2`, with WNOHANG. -/
inductive Wait
  | raises
  | nobody
  | child (w : Waited)
deriving DecidableEq, Repr

/-- What the environment decides in one turn of the loop of `reap_jobs`. -/
structure Turn where
  doneFault : Bool := false
  signaled : Bool := false
  forks : List Fork := []
  wait : Wait := .nobody
deriving DecidableEq, Repr

/-- `cid, status = waitpid2 …; job = @children[cid]; finish_job job, status`.  The job in
    `@children` is the same object; a pid that is not in `@children` makes `finish_job` raise. -/
def takeChild (w : Waited) (o : Own) (v : Vars) : (Own × Vars) × Option Err :=
  match o.children.lookup w.cid with
  | none => ((o, { v with cid := some w.cid, job := none, taken := v.taken + 1 }), some .standard)
  | some child =>
    (({ o with children := o.children.insert w.cid (finishJob w child) },
      { v with cid := some w.cid, job := some ⟨w, child⟩, taken := v.taken + 1 }), none)

/-- `@children.delete cid`; `cid` is nil after a `waitpid2` that found nobody. -/
def deleteChild (cid : Option Nat) (o : Own) : Own :=
  match cid with
  | none => o
  | some cid => { o with children := o.children.erase cid }

/-- The loop in the block of `Feeder#reap_jobs`. -/
def reapLoop (h : Hostname) (maxFeed : Int) (reapOnly : Bool) :
    List Turn → Nat → Jobs → Own × Vars → (Jobs × (Own × Vars)) × Option Err
  | [], _, jobs, p => ((jobs, p), some .standard)
  | t :: turns, loopno, jobs, (o, v) =>
    match v.job with
    | none => ((jobs, (o, v)), some .standard)
    | some done =>
      if t.doneFault then ((jobs, (o, v)), some .standard)
      else
        let jobs := jobisdone done.job jobs
        let o := deleteChild v.cid o
        let v := { v with reaped := v.reaped ++ [done] }
        match (if reapOnly || t.signaled then ((jobs, o), none)
          else startJobs h maxFeed t.forks jobs o) with
        | ((jobs, o), some e) => ((jobs, (o, v)), some e)
        | ((jobs, o), none) =>
          if o.children.entries.length = 0 ∨ loopno > 42 then ((jobs, (o, v)), none)
          else
            match t.wait with
            | .raises => ((jobs, (o, v)), some .standard)
            | .nobody => ((jobs, (o, { v with cid := none })), none)
            | .child w =>
              match takeChild w o v with
              | (p, none) => reapLoop h maxFeed reapOnly turns (loopno + 1) jobs p
              | (p, some e) => ((jobs, p), some e)

/-- The block of `start_jobs`, as `transaction` takes it. -/
def startBody (h : Hostname) (maxFeed : Int) : Body Jobs Own (List Fork) := startJobs h maxFeed

/-- The block of `reap_jobs`. -/
def reapBody (h : Hostname) (maxFeed : Int) (reapOnly : Bool) :
    Body Jobs (Own × Vars) (List Turn) :=
  fun turns => reapLoop h maxFeed reapOnly turns 0

/-! ## What the blocks do, step by step -/

/-- The job as it is recorded once its child runs. -/
def launched (h : Hostname) (e : Fork) (job : Row) : Row :=
  { prepared h e.now job with pid := some (toString e.pid) }

/-- The feeder's own state after a launch. -/
def Own.launch (o : Own) (h : Hostname) (e : Fork) (job : Row) : Own where
  children := o.children.insert e.pid (launched h e job)
  launches := o.launches ++ [⟨job.jid, e.pid, decide (e.pid ∈ o.children)⟩]

/-- **The spec of `start_job`**: it raises and has not changed the table, and it has either done
    nothing or called `JobRunner#run`; or it has launched the job and recorded it. -/
theorem startJob_cases (h : Hostname) (job : Row) (e : Fork) (jobs : Jobs) (o : Own) :
    (∃ o', startJob h job e jobs o = ((jobs, o'), some .standard) ∧
      (o' = o ∨ ∃ l : Launch, l.jid = job.jid ∧ o'.launches = o.launches ++ [l])) ∨
    (startJob h job e jobs o
        = ((jobisrunning (launched h e job) jobs, o.launch h e job), none)) := by
  unfold startJob
  by_cases hrunner : e.fault = some .runner
  · left
    exact ⟨o, by simp [hrunner], Or.inl rfl⟩
  by_cases hrun : e.fault = some .run ∨ (prepared h e.now job).command = none
  · left
    simp only [hrunner, hrun, if_true, if_false]
    exact ⟨_, rfl, Or.inr ⟨_, rfl, rfl⟩⟩
  by_cases hrec : e.fault = some .jobisrunning
  · left
    refine ⟨o.launch h e job, ?_, Or.inr ⟨_, rfl, rfl⟩⟩
    rw [if_neg hrunner, if_neg hrun, if_pos hrec]
    rfl
  · right
    rw [if_neg hrunner, if_neg hrun, if_neg hrec]
    rfl

/-- **The rule for `start_jobs`.**  What each launch of a job returned by `getjob` keeps, a block
    that returns keeps.  Induction on the script. -/
theorem startJobs_rule {h : Hostname} {maxFeed : Int} {I : Jobs → Own → Prop}
    (hstart : ∀ jobs o job e, I jobs o → busy maxFeed o = false → getjob h jobs = some job →
      I (jobisrunning (launched h e job) jobs) (o.launch h e job)) :
    ∀ {script : List Fork} {jobs jobs' : Jobs} {o o' : Own},
      startJobs h maxFeed script jobs o = ((jobs', o'), none) → I jobs o → I jobs' o' := by
  intro script
  induction script with
  | nil =>
    intro jobs jobs' o o' hr hi
    rw [startJobs] at hr
    split at hr
    · cases hr; exact hi
    split at hr
    · cases hr; exact hi
    · cases hr
  | cons e script ih =>
    intro jobs jobs' o o' hr hi
    rw [startJobs] at hr
    split at hr
    · cases hr; exact hi
    rename_i hbusy
    split at hr
    · cases hr; exact hi
    rename_i job hjob
    simp only at hr
    rcases startJob_cases h job e jobs o with ⟨o₁, ho₁, -⟩ | hok
    · rw [ho₁] at hr
      cases hr
    · rw [hok] at hr
      exact ih hr (hstart jobs o job e hi (by simpa using hbusy) hjob)

/-- Launches are only added; a block that added none did nothing. -/
theorem startJobs_launches {h : Hostname} {maxFeed : Int} :
    ∀ {script : List Fork} {jobs jobs' : Jobs} {o o' : Own} {err : Option Err},
      startJobs h maxFeed script jobs o = ((jobs', o'), err) →
      ∃ new, o'.launches = o.launches ++ new ∧ (new = [] → o' = o ∧ jobs' = jobs) := by
  intro script
  induction script with
  | nil =>
    intro jobs jobs' o o' err hr
    have hsame : jobs' = jobs ∧ o' = o := by
      rw [startJobs] at hr
      split at hr
      · cases hr; exact ⟨rfl, rfl⟩
      split at hr <;> cases hr <;> exact ⟨rfl, rfl⟩
    exact ⟨[], by rw [hsame.2, List.append_nil], fun _ => ⟨hsame.2, hsame.1⟩⟩
  | cons e script ih =>
    intro jobs jobs' o o' err hr
    rw [startJobs] at hr
    split at hr
    · cases hr; exact ⟨[], by simp, fun _ => ⟨rfl, rfl⟩⟩
    split at hr
    · cases hr; exact ⟨[], by simp, fun _ => ⟨rfl, rfl⟩⟩
    rename_i job hjob
    simp only at hr
    rcases startJob_cases h job e jobs o with ⟨o₁, ho₁, hsame | ⟨l, -, hl⟩⟩ | hok
    · rw [ho₁] at hr
      cases hr
      exact ⟨[], by rw [hsame, List.append_nil], fun _ => ⟨hsame, rfl⟩⟩
    · rw [ho₁] at hr
      cases hr
      exact ⟨[l], hl, fun h => by cases h⟩
    · rw [hok] at hr
      obtain ⟨new, hnew, -⟩ := ih hr
      refine ⟨⟨job.jid, e.pid, decide (e.pid ∈ o.children)⟩ :: new, ?_, fun hnil => by cases hnil⟩
      rw [hnew]
      show (o.launches ++ [_]) ++ new = _
      rw [List.append_assoc, List.singleton_append]

/-- **The rule for `reap_jobs`.**  `I` is kept by recording and deleting the current child, by each
    launch, and by taking a further child; `C` is what is known of the current child before it is
    recorded.  Then a block that returns keeps `I`.  Induction on the turns of the loop. -/
theorem reapLoop_rule {h : Hostname} {maxFeed : Int} {reapOnly : Bool}
    {I : Jobs → Own → List Reaped → Prop} {C : Jobs → Own → Option Nat → Reaped → Prop}
    (hdone : ∀ jobs o cid l d, I jobs o l → C jobs o cid d →
      I (jobisdone d.job jobs) (deleteChild cid o) (l ++ [d]))
    (hstart : ∀ jobs o l job e, I jobs o l → busy maxFeed o = false → getjob h jobs = some job →
      I (jobisrunning (launched h e job) jobs) (o.launch h e job) l)
    (htake : ∀ jobs (o : Own) l (w : Waited) child, I jobs o l → o.children.lookup w.cid = some child →
      I jobs { o with children := o.children.insert w.cid (finishJob w child) } l ∧
      C jobs { o with children := o.children.insert w.cid (finishJob w child) } (some w.cid)
        ⟨w, child⟩) :
    ∀ {turns : List Turn} {loopno : Nat} {jobs jobs' : Jobs} {o o' : Own} {v v' : Vars},
      reapLoop h maxFeed reapOnly turns loopno jobs (o, v) = ((jobs', (o', v')), none) →
      I jobs o v.reaped → (∀ d, v.job = some d → C jobs o v.cid d) → I jobs' o' v'.reaped := by
  intro turns
  induction turns with
  | nil => intro loopno jobs jobs' o o' v v' hr; cases hr
  | cons t turns ih =>
    intro loopno jobs jobs' o o' v v' hr hi hcur
    rw [reapLoop] at hr
    split at hr
    · cases hr
    rename_i d hd
    split at hr
    · cases hr
    simp only at hr
    -- the current child is recorded and deleted, then jobs are started
    have hdone' := hdone jobs o v.cid v.reaped d hi (hcur d hd)
    split at hr
    · cases hr
    rename_i jobs₁ o₁ hs
    have hi₁ : I jobs₁ o₁ (v.reaped ++ [d]) := by
      split at hs
      · cases hs; exact hdone'
      · exact startJobs_rule (fun jobs o job e hi hb hj => hstart jobs o _ job e hi hb hj) hs hdone'
    split at hr
    · cases hr; exact hi₁
    split at hr
    · cases hr
    · cases hr; exact hi₁
    rename_i w hw
    -- another child: once more around the loop
    unfold takeChild at hr
    cases hlook : o₁.children.lookup w.cid with
    | none => simp only [hlook] at hr; cases hr
    | some child =>
      simp only [hlook] at hr
      obtain ⟨hi₂, hcur₂⟩ := htake jobs₁ o₁ _ w child hi₁ hlook
      refine ih hr hi₂ ?_
      intro d' hd'
      cases hd'
      exact hcur₂

/-- What is left of an attempt of `reap_jobs` that launched nothing and took no further child: the
    current child may have been deleted, but it is still the current one. -/
def SameChild (o : Own) (v : Vars) (o' : Own) (v' : Vars) : Prop :=
  (o' = o ∧ v' = v) ∨
  (o' = deleteChild v.cid o ∧ ∃ d, v.job = some d ∧ v'.job = some d ∧
    v'.reaped = v.reaped ++ [d] ∧ (v'.cid = v.cid ∨ v'.cid = none))

/-- Launches and waits are only added; and a block that added none is still at its first child. -/
theorem reapLoop_effects {h : Hostname} {maxFeed : Int} {reapOnly : Bool} :
    ∀ {turns : List Turn} {loopno : Nat} {jobs jobs' : Jobs} {o o' : Own} {v v' : Vars}
      {err : Option Err},
      reapLoop h maxFeed reapOnly turns loopno jobs (o, v) = ((jobs', (o', v')), err) →
      ∃ new k, o'.launches = o.launches ++ new ∧ v'.taken = v.taken + k ∧
        (new = [] → k = 0 → SameChild o v o' v') := by
  intro turns
  induction turns with
  | nil =>
    intro loopno jobs jobs' o o' v v' err hr
    cases hr
    exact ⟨[], 0, by simp, rfl, fun _ _ => Or.inl ⟨rfl, rfl⟩⟩
  | cons t turns ih =>
    intro loopno jobs jobs' o o' v v' err hr
    rw [reapLoop] at hr
    split at hr
    · cases hr; exact ⟨[], 0, by simp, rfl, fun _ _ => Or.inl ⟨rfl, rfl⟩⟩
    rename_i d hd
    split at hr
    · cases hr; exact ⟨[], 0, by simp, rfl, fun _ _ => Or.inl ⟨rfl, rfl⟩⟩
    simp only at hr
    -- what `start_jobs`, or skipping it, adds
    have hs : ∀ {jobs₀ jobs₁ : Jobs} {o₁ : Own} {e : Option Err},
        (if (reapOnly || t.signaled) = true then ((jobs₀, deleteChild v.cid o), none)
          else startJobs h maxFeed t.forks jobs₀ (deleteChild v.cid o)) = ((jobs₁, o₁), e) →
        ∃ new, o₁.launches = o.launches ++ new ∧ (new = [] → o₁ = deleteChild v.cid o) := by
      intro jobs₀ jobs₁ o₁ e hs
      have hdel : (deleteChild v.cid o).launches = o.launches := by cases v.cid <;> rfl
      split at hs
      · cases hs
        exact ⟨[], by rw [hdel, List.append_nil], fun _ => rfl⟩
      · obtain ⟨new, hnew, hnil⟩ := startJobs_launches hs
        exact ⟨new, by rw [hnew, hdel], fun hn => (hnil hn).1⟩
    split at hr
    · rename_i hs'
      obtain ⟨new, hnew, hnil⟩ := hs hs'
      cases hr
      exact ⟨new, 0, hnew, rfl, fun hn _ => Or.inr ⟨hnil hn, d, hd, hd, rfl, Or.inl rfl⟩⟩
    rename_i jobs₁ o₁ hs'
    obtain ⟨new, hnew, hnil⟩ := hs hs'
    split at hr
    · cases hr
      exact ⟨new, 0, hnew, rfl, fun hn _ => Or.inr ⟨hnil hn, d, hd, hd, rfl, Or.inl rfl⟩⟩
    split at hr
    · cases hr
      exact ⟨new, 0, hnew, rfl, fun hn _ => Or.inr ⟨hnil hn, d, hd, hd, rfl, Or.inl rfl⟩⟩
    · cases hr
      exact ⟨new, 0, hnew, rfl, fun hn _ => Or.inr ⟨hnil hn, d, hd, hd, rfl, Or.inr rfl⟩⟩
    rename_i w hw
    unfold takeChild at hr
    cases hlook : o₁.children.lookup w.cid with
    | none =>
      simp only [hlook] at hr
      cases hr
      exact ⟨new, 1, hnew, rfl, fun _ hk => by cases hk⟩
    | some child =>
      simp only [hlook] at hr
      obtain ⟨new', k, hnew', hk, -⟩ := ih hr
      refine ⟨new ++ new', k + 1, ?_, ?_, fun _ hk => by cases hk⟩
      · rw [hnew']
        show o₁.launches ++ new' = _
        rw [hnew, List.append_assoc]
      · rw [hk]
        show v.taken + 1 + k = _
        omega

/-- A block that returns has reaped the current child first. -/
theorem reapLoop_reaped {h : Hostname} {maxFeed : Int} {reapOnly : Bool} :
    ∀ {turns : List Turn} {loopno : Nat} {jobs jobs' : Jobs} {o o' : Own} {v v' : Vars},
      reapLoop h maxFeed reapOnly turns loopno jobs (o, v) = ((jobs', (o', v')), none) →
      ∃ d rest, v.job = some d ∧ v'.reaped = v.reaped ++ d :: rest := by
  intro turns
  induction turns with
  | nil => intro loopno jobs jobs' o o' v v' hr; cases hr
  | cons t turns ih =>
    intro loopno jobs jobs' o o' v v' hr
    rw [reapLoop] at hr
    split at hr
    · cases hr
    rename_i d hd
    refine ⟨d, ?_⟩
    split at hr
    · cases hr
    simp only at hr
    split at hr
    · cases hr
    rename_i jobs₁ o₁ _
    split at hr
    · cases hr; exact ⟨[], hd, rfl⟩
    split at hr
    · cases hr
    · cases hr; exact ⟨[], hd, rfl⟩
    rename_i w _
    unfold takeChild at hr
    cases hlook : o₁.children.lookup w.cid with
    | none => simp only [hlook] at hr; cases hr
    | some child =>
      simp only [hlook] at hr
      obtain ⟨d', rest, -, hrest⟩ := ih hr
      refine ⟨d' :: rest, hd, ?_⟩
      rw [hrest]
      show (v.reaped ++ [d]) ++ d' :: rest = _
      rw [List.append_assoc, List.singleton_append]

end RubyQueue.Feeder
