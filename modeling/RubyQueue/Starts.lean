/-
  Is a job started at most once each time it comes to wait for a feeder?

  The history lists the calls of `JobRunner#run` and the moments a job enters the pending (or the
  dead and restartable) state.  The code is to keep `OncePerEntry`: between two runs of a jid there is
  an entry of it.

  It holds along every run in which no attempt that is rolled back has called `JobRunner#run`
  (`NoLostLaunch`): then a job is launched only when it waits in the committed table, and does not
  wait any more when the launch commits.  It fails otherwise: `start_job` launches INSIDE the block
  that `transaction_wrap` runs again, and the rollback makes the job wait again without undoing the
  launch.
-/
import RubyQueue.System

namespace RubyQueue.System

open RubyQueue.JobQueue RubyQueue.Qdb RubyQueue.Feeder RubyQueue.Run

/-! ## Histories -/

/-- Between two runs of a jid the job entered a waiting state. -/
def OncePerEntry (history : List Event) : Prop :=
  ∀ jid a b c, history = a ++ .run jid :: (b ++ .run jid :: c) → Event.enter jid ∈ b

/-- The job has not been run since it last entered a waiting state. -/
def Unrun (history : List Event) (jid : Nat) : Prop :=
  ∀ a b, history = a ++ .run jid :: b → Event.enter jid ∈ b

/-- The history is in order, and no job that waits has been run since it came to wait. -/
structure Settled (history : List Event) (jobs : Jobs) : Prop where
  once : OncePerEntry history
  unrun : ∀ jid, Eligible jobs jid → Unrun history jid

/-- Split an equation at the last element. -/
theorem append_singleton_split {h a l : List Event} {e x : Event} (heq : h ++ [e] = a ++ x :: l) :
    (l = [] ∧ h = a ∧ e = x) ∨ ∃ l', l = l' ++ [e] ∧ h = a ++ x :: l' := by
  rcases List.eq_nil_or_concat l with rfl | ⟨l', y, rfl⟩
  · left
    obtain ⟨rfl, hx⟩ := List.append_inj' heq rfl
    exact ⟨rfl, rfl, by simpa using hx⟩
  · right
    have heq : h ++ [e] = (a ++ x :: l') ++ [y] := by simpa using heq
    obtain ⟨rfl, hy⟩ := List.append_inj' heq rfl
    obtain rfl : e = y := by simpa using hy
    exact ⟨l', by simp, rfl⟩

theorem Unrun.append {h : List Event} {jid : Nat} {e : Event} (hu : Unrun h jid)
    (he : e ≠ .run jid) : Unrun (h ++ [e]) jid := by
  intro a b heq
  rcases append_singleton_split heq with ⟨-, -, he'⟩ | ⟨b', rfl, hh⟩
  · exact absurd he' he
  · exact List.mem_append_left _ (hu a b' hh)

theorem Unrun.enter (h : List Event) (jid : Nat) : Unrun (h ++ [.enter jid]) jid := by
  intro a b heq
  rcases append_singleton_split heq with ⟨-, -, he⟩ | ⟨b', rfl, -⟩
  · cases he
  · simp

/-- One more run of a job that had not been run. -/
theorem OncePerEntry.run {h : List Event} {jid : Nat} (ho : OncePerEntry h) (hu : Unrun h jid) :
    OncePerEntry (h ++ [.run jid]) := by
  intro j a b c heq
  have heq' : h ++ [.run jid] = (a ++ .run j :: b) ++ .run j :: c := by simpa using heq
  rcases append_singleton_split heq' with ⟨-, hh, he⟩ | ⟨c', rfl, hh⟩
  · cases he
    exact hu a b hh
  · exact ho j a b c' (by simpa using hh)

theorem OncePerEntry.enter {h : List Event} {jid : Nat} (ho : OncePerEntry h) :
    OncePerEntry (h ++ [.enter jid]) := by
  intro j a b c heq
  have heq' : h ++ [.enter jid] = (a ++ .run j :: b) ++ .run j :: c := by simpa using heq
  rcases append_singleton_split heq' with ⟨-, -, he⟩ | ⟨c', rfl, hh⟩
  · cases he
  · exact ho j a b c' (by simpa using hh)

/-- Entries never hurt, and a job whose entry is recorded has not been run since. -/
theorem enters_append (h : List Event) : ∀ jids : List Nat,
    (OncePerEntry h → OncePerEntry (h ++ jids.map .enter)) ∧
    (∀ jid, Unrun h jid ∨ jid ∈ jids → Unrun (h ++ jids.map .enter) jid) := by
  intro jids
  induction jids using List.reverseRecOn with
  | nil =>
    refine ⟨fun ho => by simpa using ho, fun jid hj => ?_⟩
    rcases hj with hj | hj
    · simpa using hj
    · cases hj
  | append_singleton jids j ih =>
    rw [List.map_append, ← List.append_assoc]
    refine ⟨fun ho => (ih.1 ho).enter, fun jid hj => ?_⟩
    by_cases hjj : jid = j
    · subst hjj
      exact Unrun.enter _ jid
    · have hj' : Unrun h jid ∨ jid ∈ jids := by
        rcases hj with hj | hj
        · exact Or.inl hj
        · rcases List.mem_append.mp hj with hj | hj
          · exact Or.inr hj
          · exact absurd (List.mem_singleton.mp hj) hjj
      exact (ih.2 jid hj').append (by simp)

/-- **Any change of the table** keeps the history settled once its entries are recorded. -/
theorem Settled.change {h : List Event} {jobs : Jobs} (hs : Settled h jobs) (jobs' : Jobs) :
    Settled (extend h [] jobs jobs') jobs' := by
  obtain ⟨honce, hunrun⟩ := enters_append h (entered jobs jobs')
  show Settled (h ++ [] ++ _) jobs'
  rw [List.append_nil]
  refine ⟨honce hs.once, fun jid hel => hunrun jid ?_⟩
  by_cases hbefore : Eligible jobs jid
  · exact Or.inl (hs.unrun jid hbefore)
  · right
    obtain ⟨r, hr, hjid, -⟩ := id hel
    rw [entered, List.mem_filter]
    exact ⟨List.mem_map.mpr ⟨r, hr, hjid⟩, by simp [hel, hbefore]⟩

/-! ## One block of a feeder -/

/-- The runs of this block, appended to the history, leave it settled. -/
def SettledBy (h : List Event) (before : List Launch) (jobs : Jobs) (o : Own) : Prop :=
  ∃ new, o.launches = before ++ new ∧ Settled (h ++ new.map fun l => .run l.jid) jobs

/-- A launch: the job waited, has not been run since, and does not wait any more. -/
theorem SettledBy.launch {h : List Event} {before : List Launch} {jobs : Jobs} {o : Own}
    {host : Hostname} {job : Row} (hs : SettledBy h before jobs o)
    (hjob : getjob host jobs = some job) (e : Fork) :
    SettledBy h before (jobisrunning (launched host e job) jobs) (o.launch host e job) := by
  obtain ⟨new, hnew, hset⟩ := hs
  obtain ⟨hmem, hel⟩ := getjob_some hjob
  refine ⟨new ++ [⟨job.jid, e.pid, decide (e.pid ∈ o.children)⟩], ?_, ?_⟩
  · show o.launches ++ [_] = _
    rw [hnew, List.append_assoc]
  · rw [List.map_append, ← List.append_assoc]
    refine ⟨hset.once.run (hset.unrun job.jid ⟨job, hmem, rfl, hel⟩), fun jid hjid => ?_⟩
    -- only jobs that waited before wait now, and this one does not
    obtain ⟨r, hr, hrj, hrel⟩ := hjid
    rcases Jobs.mem_update_jid.mp hr with ⟨hr, hne⟩ | ⟨r', -, -, rfl⟩
    · refine (hset.unrun jid ⟨r, hr, hrj, hrel⟩).append ?_
      rintro heq
      exact hne (hrj.trans (Event.run.inj heq).symm)
    · exact absurd rfl (eligible_not_running hrel)

/-- Recording a finished child makes no job wait. -/
theorem SettledBy.jobisdone {h : List Event} {before : List Launch} {jobs : Jobs} {o : Own}
    (hs : SettledBy h before jobs o) (cid : Option Nat) (d : Reaped) :
    SettledBy h before (JobQueue.jobisdone d.job jobs) (deleteChild cid o) := by
  obtain ⟨new, hnew, hset⟩ := hs
  refine ⟨new, by cases cid <;> exact hnew, hset.once, fun jid hjid => ?_⟩
  obtain ⟨r, hr, hrj, hrel⟩ := hjid
  rcases Jobs.mem_update_jid.mp hr with ⟨hr, -⟩ | ⟨r', -, -, rfl⟩
  · exact hset.unrun jid ⟨r, hr, hrj, hrel⟩
  · rcases eligible_iff.mp hrel with hst | ⟨hst, -⟩
    · exact absurd hst (by show some "finished" ≠ _; decide)
    · exact absurd hst (by show some "finished" ≠ _; decide)

theorem startJobs_settled {h : List Event} {host : Hostname} {maxFeed : Int} {script : List Fork}
    {jobs jobs' : Jobs} {o o' : Own} (hs : Settled h jobs)
    (hr : startJobs host maxFeed script jobs o = ((jobs', o'), none)) :
    SettledBy h o.launches jobs' o' := by
  refine startJobs_rule (I := SettledBy h o.launches) ?_ hr ⟨[], by simp, by simpa using hs⟩
  exact fun jobs o job e hi _ hjob => hi.launch hjob e

theorem reapLoop_settled {h : List Event} {host : Hostname} {maxFeed : Int} {reapOnly : Bool}
    {turns : List Turn} {loopno : Nat} {jobs jobs' : Jobs} {o o' : Own} {v v' : Vars}
    (hs : Settled h jobs)
    (hr : reapLoop host maxFeed reapOnly turns loopno jobs (o, v) = ((jobs', (o', v')), none)) :
    SettledBy h o.launches jobs' o' := by
  refine reapLoop_rule (I := fun jobs o₁ _ => SettledBy h o.launches jobs o₁)
    (C := fun _ _ _ _ => True) ?_ ?_ ?_ hr ⟨[], by simp, by simpa using hs⟩ fun _ _ => trivial
  · exact fun jobs o cid l d hi _ => hi.jobisdone cid d
  · exact fun jobs o l job e hi _ hjob => hi.launch hjob e
  · exact fun jobs o l w child hi _ => ⟨hi, trivial⟩

/-- The history after a committed block. -/
theorem SettledBy.extend {h : List Event} {jobs jobs' : Jobs} {o o' : Own}
    (hs : SettledBy h o.launches jobs' o') :
    Settled (extend h (launchedSince o o') jobs jobs') jobs' := by
  obtain ⟨new, hnew, hset⟩ := hs
  have hruns : (launchedSince o o').map Event.run = new.map fun l => .run l.jid := by
    rw [launchedSince, hnew, List.drop_left, List.map_map]
    rfl
  obtain ⟨honce, hunrun⟩ := enters_append (h ++ new.map fun l => .run l.jid) (entered jobs jobs')
  unfold System.extend
  rw [hruns]
  exact ⟨honce hset.once, fun jid hel => hunrun jid (Or.inl (hset.unrun jid hel))⟩

/-! ## Every run -/

variable {ι : Type} [DecidableEq ι]

/-- The step is no attempt that is rolled back after it called `JobRunner#run`. -/
def NoLostLaunch (cfg : Config ι) (s : State ι) : Label ι → Prop
  | .start i a => startCommits cfg s i a = false →
      (startAttempt cfg s i a).1.priv.launches = (s.feeder i).own.launches
  | .reap i a => ∀ reapOnly errors, (s.feeder i).phase = .reaping reapOnly errors →
      reapCommits cfg s i reapOnly a = false →
      (reapAttempt cfg s i reapOnly a).1.priv.1.launches = (s.feeder i).own.launches
  | _ => True

theorem extend_same {h : List Event} {jobs : Jobs} {o o' : Own} (hl : o'.launches = o.launches) :
    extend h (launchedSince o o') jobs jobs = h := by
  have hnone : entered jobs jobs = [] := by
    unfold entered
    rw [List.filter_eq_nil_iff]
    intro jid _
    cases decide (Eligible jobs jid) <;> simp
  simp [extend, launchedSince, hl, hnone]

theorem settled_step {cfg : Config ι} {s t : State ι} {l : Label ι}
    (hs : Settled s.history s.jobs) (hg : NoLostLaunch cfg s l) (h : step cfg s l = some t) :
    Settled t.history t.jobs := by
  rcases step_cases h with ⟨c, jobs, rfl, -, rfl⟩ | ⟨i, a, errors, rfl, -, rfl⟩ |
    ⟨i, reapOnly, w, rfl, -, rfl⟩ | ⟨i, a, reapOnly, errors, rfl, hp, rfl⟩ | ⟨i, rfl, rfl⟩ |
    ⟨i, started, rfl, -, rfl⟩
  · -- a client
    exact hs.change jobs
  · -- an attempt of `start_jobs`
    show Settled (extend s.history (launchedSince (s.feeder i).own (startAttempt cfg s i a).1.priv)
      s.jobs (startAttempt cfg s i a).1.db) (startAttempt cfg s i a).1.db
    cases hc : startCommits cfg s i a with
    | true => exact (startJobs_settled hs (startAttempt_committed hc)).extend
    | false =>
      rw [(startAttempt_rolledBack hc).1, extend_same (hg hc)]
      exact hs
  · -- `waitpid2`
    exact hs
  · -- an attempt of `reap_jobs`
    show Settled (extend s.history
      (launchedSince (s.feeder i).own (reapAttempt cfg s i reapOnly a).1.priv.1)
      s.jobs (reapAttempt cfg s i reapOnly a).1.db) (reapAttempt cfg s i reapOnly a).1.db
    cases hc : reapCommits cfg s i reapOnly a with
    | true => exact (reapLoop_settled hs (reapAttempt_committed hc)).extend
    | false =>
      rw [(reapAttempt_rolledBack hc).1, extend_same (hg reapOnly errors hp hc)]
      exact hs
  · -- a crash
    exact hs
  · -- a restart
    exact hs.change _

/-- **At most one start for each entry.**  For any feeders and clients, in every interleaving of
    their attempts, rolled back or not: as long as no attempt that is rolled back has called
    `JobRunner#run`, a job is run at most once between two entries into a waiting state. -/
theorem runs_once_per_entry (cfg : Config ι) (s : State ι)
    (h : Reach Initial (step cfg) (NoLostLaunch cfg) s) : OncePerEntry s.history := by
  have hset : Settled s.history s.jobs := by
    refine Reach.invariant (I := fun s => Settled s.history s.jobs) ?_ ?_ h
    · intro s h0
      rw [h0.2]
      exact ⟨fun _ _ _ _ heq => by simp at heq, fun _ _ _ _ heq => by simp at heq⟩
    · exact fun s l t hs hg hst => settled_step hs hg hst
  exact hset.once

/-! ## A run with two starts -/

/-- One feeder, for two jobs at a time. -/
def oneFeeder : Config Unit where
  host := fun _ => node1
  distinct := fun _ _ _ => rfl
  maxFeed := fun _ => 2

/-- A queue with one pending job. -/
def onePending : State Unit where
  jobs := ⟨[⟨1, some "0", some "pending", some "2005-07-01", none, none, none, some "node1", none,
    some "stdin/1", none, none, some "data/1", none, none, none, none, some "make"⟩], by decide⟩

/-- The first attempt of `start_jobs` launches the job and its commit raises; the second launches it
    again. -/
def retriedStart : List (Label Unit) :=
  [.start () { faults := { commit := true }, script := [{ pid := 100, now := "2005-07-02" }] },
   .start () { script := [{ pid := 101, now := "2005-07-02" }] }]

theorem retried_start_runs_twice :
    ∃ s, Reach Initial (step oneFeeder) (fun _ _ => True) s ∧ s.history = [.run 1, .run 1] ∧
      ¬ OncePerEntry s.history := by
  have hrun : (exec (step oneFeeder) retriedStart onePending).map State.history
      = some [.run 1, .run 1] := by decide
  obtain ⟨s, hs, hhist⟩ := Option.map_eq_some_iff.mp hrun
  refine ⟨s, Reach.exec (Reach.init ⟨fun _ => rfl, rfl⟩) (along_true _ _) hs, hhist, fun hno => ?_⟩
  exact absurd (hno 1 [] [] [] hhist) (by decide)

/-- The same run without the failed commit is a run of the theorem. -/
theorem one_start_runs_once :
    ∃ s, step oneFeeder onePending
        (.start () { script := [{ pid := 100, now := "2005-07-02" }] }) = some s ∧
      s.history = [.run 1] ∧ OncePerEntry s.history := by
  have hrun : (step oneFeeder onePending
      (.start () { script := [{ pid := 100, now := "2005-07-02" }] })).map State.history
      = some [.run 1] := by decide
  obtain ⟨s, hs, hhist⟩ := Option.map_eq_some_iff.mp hrun
  refine ⟨s, hs, hhist, runs_once_per_entry oneFeeder s ?_⟩
  refine Reach.step (Reach.init ⟨fun _ => rfl, rfl⟩) ?_ hs
  intro hc
  exact absurd hc (by decide)

end RubyQueue.System
