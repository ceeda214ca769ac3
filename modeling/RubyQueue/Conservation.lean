/-
  Jobs are kept, and so are their commands.

  Whatever feeders and clients do, in any interleaving and with any attempt failing, being run again or
  given up: as long as nobody deletes or rotates and no `update` sets a command, every job that was in
  the queue is in the queue, under its jid and with its command.  So the command a feeder is given by
  `getjob`, however much later and after however many restarts of the job, is the command it was
  submitted with.

  One exception is in the code: `resubmit` writes the command back through `QDB::q` and SQLite, which
  reads two adjacent quotes as one.  A command is `Stable` when that gives it back.

  * `Preserved`       — what a transaction keeps of the table, closed under composition;
  * `client_preserved`, `preserved_step` — each client, and each step of the system;
  * `jobs_are_kept`   — every run.
-/
import RubyQueue.Starts

namespace RubyQueue.JobQueue

open RubyQueue.Raise

/-- `resubmit` writes the command back as it is. -/
def Stable (r : Row) : Prop := storedText r.command = r.command

/-- No row has gone, and the rows with stable commands have their commands. -/
structure Preserved (db db' : Jobs) : Prop where
  jids : KeepsJids db db'
  commands : ∀ r ∈ db, ∀ s ∈ db', s.jid = r.jid → Stable r → s.command = r.command

theorem Preserved.refl (db : Jobs) : Preserved db db :=
  ⟨fun r hr => ⟨r, hr, rfl⟩, fun r hr s hs heq _ => by rw [Jobs.eq_of_jid hs hr heq]⟩

theorem Preserved.trans {db db' db'' : Jobs} (h : Preserved db db') (k : Preserved db' db'') :
    Preserved db db'' := by
  refine ⟨h.jids.trans k.jids, fun r hr t ht heq hstable => ?_⟩
  obtain ⟨s, hs, hsr⟩ := h.jids r hr
  have hcommand := h.commands r hr s hs hsr hstable
  have hs_stable : Stable s := by
    unfold Stable
    rw [hcommand]
    exact hstable
  exact (k.commands s hs t ht (heq.trans hsr.symm) hs_stable).trans hcommand

theorem keepsJids_update (db : Jobs) (p : Row → Bool) (f : Row → Row) :
    KeepsJids db (db.update p f) :=
  fun r hr => ⟨_, Jobs.mem_update.mpr ⟨r, hr, rfl⟩, setWhere_jid p f r⟩

/-- An update that sets no command. -/
theorem preserved_update {db : Jobs} {p : Row → Bool} {f : Row → Row}
    (hf : ∀ r, (f r).command = r.command) : Preserved db (db.update p f) := by
  refine ⟨keepsJids_update db p f, fun r hr s hs heq _ => ?_⟩
  obtain ⟨r', hr', rfl⟩ := Jobs.mem_update.mp hs
  rw [setWhere_jid] at heq
  obtain rfl := Jobs.eq_of_jid hr' hr heq
  unfold setWhere
  split
  · exact hf r'
  · rfl

/-! ## Clients -/

theorem submit_preserved {now host : String} {jobs : List JobHash} {db db' : Jobs}
    (h : submit now host jobs db = .ok db') : Preserved db db' := by
  have hmem : ∀ r ∈ db, r ∈ db' := fun r hr => by
    rw [Jobs.mem_def, (submit_ok h).1]
    exact List.mem_append_left _ hr
  refine ⟨fun r hr => ⟨r, hmem r hr, rfl⟩, fun r hr s hs heq _ => ?_⟩
  rw [Jobs.eq_of_jid hs (hmem r hr) heq]

theorem ofName_eq_some {n : String} {c : Column} (h : Column.ofName n = some c) : c.name = n := by
  have := List.find?_some h
  simpa using this

/-- No assignment to `command`. -/
theorem assign_command {kvs : List (Column × Option String)} (h : ∀ cv ∈ kvs, cv.1 ≠ .command) :
    ∀ r : Row, (r.assign kvs).command = r.command := by
  induction kvs with
  | nil => exact fun _ => rfl
  | cons cv kvs ih =>
    intro r
    obtain ⟨c, v⟩ := cv
    have hset : (r.set v c).command = r.command := by
      have hc : c ≠ .command := h (c, v) List.mem_cons_self
      cases c <;> first | rfl | exact absurd rfl hc
    exact (ih (fun cv hcv => h cv (List.mem_cons_of_mem _ hcv)) (r.set v c)).trans hset

theorem update_preserved {sqlite : OtherSql} {kvs : List (String × Option String)}
    {targets : List Target} {db db' : Jobs} (hq : QuoteFree kvs)
    (hc : ∀ kv ∈ kvs, kv.1 ≠ "command") (h : update sqlite kvs targets db = .ok db') :
    Preserved db db' := by
  obtain ⟨as, jids, hv, rfl⟩ := update_assigns hq h
  refine preserved_update fun r => assign_command (fun cv hcv heq => ?_) r
  obtain ⟨kv, hkv, hok⟩ := exists_of_mapM_ok hv hcv
  have hname : kv.1 ≠ "command" := hc kv (List.mem_of_mem_filter hkv)
  -- only the key `command` becomes that column
  unfold validPair at hok
  split at hok
  · unfold mungeState at hok
    split at hok
    · cases hok
      cases heq
    · split at hok
      · cases hok
        cases heq
      · cases hok
  · cases hok
    cases heq
  · rename_i hof
    exact hname (ofName_eq_some hof).symm
  all_goals
    cases hok
    try cases heq

theorem reSubmit_preserved {now host : String} {opts : Overrides} {whats : List ListArg}
    {db db' : Jobs} (h : reSubmit now host opts whats db = .ok db') : Preserved db db' := by
  refine foldlM_rule (I := Preserved db) ?_ (Preserved.refl db) h
  intro job hjob db₁ db₂ hp hstep
  split at hstep
  · cases hstep
    exact hp
  rw [resubmit_eq] at hstep
  split at hstep
  swap
  · cases hstep
  cases hstep
  have hmem := list_mem hjob
  refine ⟨hp.jids.trans (keepsJids_update _ _ _), fun r hr s hs heq hstable => ?_⟩
  obtain ⟨r₁, hr₁, rfl⟩ := Jobs.mem_update.mp hs
  rw [setWhere_jid] at heq
  unfold setWhere
  split
  · -- the row of the listed job, whose command is written back
    rename_i hjid
    have hj : r₁.jid = job.jid := beq_iff_eq.mp hjid
    obtain rfl : job = r := Jobs.eq_of_jid hmem hr (hj.symm.trans heq)
    exact hstable
  · exact hp.commands r hr r₁ hr₁ heq hstable

theorem touch_preserved {sqlite : OtherSql} {now host : String} {jobs : List JobHash}
    {db db' : Jobs} (hq : ∀ job ∈ jobs, QuoteFree (touchKvs job))
    (h : touch sqlite now host jobs db = .ok db') : Preserved db db' := by
  unfold touch at h
  simp only at h
  split at h
  · cases h
  refine foldlM_rule (I := Preserved db) ?_ (Preserved.refl db) h
  intro job hjob db₁ db₂ hp hstep
  refine hp.trans ?_
  unfold touchOne at hstep
  split at hstep
  · cases hstep
  split at hstep
  · refine update_preserved (hq job hjob) (fun kv hkv => ?_) hstep
    have hkey : kv ∈ [("priority", job.priority), ("runner", job.runner),
        ("restartable", job.restartable)] := List.mem_of_mem_filter hkv
    simp only [List.mem_cons, List.not_mem_nil, or_false] at hkey
    rcases hkey with rfl | rfl | rfl
    · exact show "priority" ≠ "command" by decide
    · exact show "runner" ≠ "command" by decide
    · exact show "restartable" ≠ "command" by decide
  · exact submit_preserved hstep

/-- The client deletes nothing and sets no command, and its values stay within their quotes. -/
def Client.Keeping : Client → Prop
  | .delete _ => False
  | .rotate => False
  | .update kvs _ => QuoteFree kvs ∧ ∀ kv ∈ kvs, kv.1 ≠ "command"
  | .touch _ _ jobs => ∀ job ∈ jobs, QuoteFree (touchKvs job)
  | _ => True

theorem client_preserved {sqlite : OtherSql} {c : Client} {db db' : Jobs} (hc : c.Keeping)
    (h : c.exec sqlite db = .ok db') : Preserved db db' := by
  cases c with
  | submit now host jobs => exact submit_preserved h
  | resubmit now host opts whats => exact reSubmit_preserved h
  | update kvs targets => exact update_preserved hc.1 hc.2 h
  | touch now host jobs => exact touch_preserved hc h
  | delete whats => exact hc.elim
  | rotate => exact hc.elim

theorem fillMorgue_preserved (h : Hostname) (started : String) (db : Jobs) :
    Preserved db (fillMorgue h started db) := by
  unfold fillMorgue
  -- burying one job after the other
  have key : ∀ (jobs : List Row) (db' : Jobs), Preserved db db' →
      Preserved db (jobs.foldl (fun db job => jobisdead job db) db') := by
    intro jobs
    induction jobs with
    | nil => exact fun _ hp => hp
    | cons j jobs ih => exact fun db' hp => ih _ (hp.trans (preserved_update fun _ => rfl))
  exact key _ db (Preserved.refl db)

end RubyQueue.JobQueue

namespace RubyQueue.System

open RubyQueue.JobQueue RubyQueue.Qdb RubyQueue.Feeder RubyQueue.Run

variable {ι : Type} [DecidableEq ι]

/-! ## Feeders -/

omit [DecidableEq ι] in
/-- An attempt of `start_jobs`: rolled back, or a series of launches. -/
theorem startAttempt_preserved (cfg : Config ι) (s : State ι) (i : ι) (a : Attempt (List Fork)) :
    Preserved s.jobs (startAttempt cfg s i a).1.db := by
  cases hc : startCommits cfg s i a with
  | false =>
    rw [(startAttempt_rolledBack hc).1]
    exact Preserved.refl _
  | true =>
    refine startJobs_rule (I := fun jobs _ => Preserved s.jobs jobs) ?_ (startAttempt_committed hc)
      (Preserved.refl _)
    exact fun jobs o job e hp _ _ => hp.trans (preserved_update fun _ => rfl)

omit [DecidableEq ι] in
theorem reapAttempt_preserved (cfg : Config ι) (s : State ι) (i : ι) (reapOnly : Bool)
    (a : Attempt (List Turn)) : Preserved s.jobs (reapAttempt cfg s i reapOnly a).1.db := by
  cases hc : reapCommits cfg s i reapOnly a with
  | false =>
    rw [(reapAttempt_rolledBack hc).1]
    exact Preserved.refl _
  | true =>
    refine reapLoop_rule (I := fun jobs _ _ => Preserved s.jobs jobs) (C := fun _ _ _ _ => True)
      ?_ ?_ ?_ (reapAttempt_committed hc) (Preserved.refl _) (fun _ _ => trivial)
    · exact fun jobs o cid l d hp _ => hp.trans (preserved_update fun _ => rfl)
    · exact fun jobs o l job e hp _ _ => hp.trans (preserved_update fun _ => rfl)
    · exact fun jobs o l w child hp _ => ⟨hp, trivial⟩

/-! ## Every run -/

/-- Nobody deletes or rotates, and no update sets a command. -/
def Keeping (_ : State ι) : Label ι → Prop
  | .client c => c.Keeping
  | _ => True

theorem preserved_step {cfg : Config ι} {s t : State ι} {l : Label ι} (hg : Keeping s l)
    (h : step cfg s l = some t) : Preserved s.jobs t.jobs := by
  rcases step_cases h with ⟨c, jobs, rfl, hc, rfl⟩ | ⟨i, a, errors, rfl, -, rfl⟩ |
    ⟨i, reapOnly, w, rfl, -, rfl⟩ | ⟨i, a, reapOnly, errors, rfl, -, rfl⟩ | ⟨i, rfl, rfl⟩ |
    ⟨i, started, rfl, -, rfl⟩
  · exact client_preserved hg hc
  · exact startAttempt_preserved cfg s i a
  · exact Preserved.refl _
  · exact reapAttempt_preserved cfg s i reapOnly a
  · exact Preserved.refl _
  · exact fillMorgue_preserved _ _ _

/-- **Jobs are kept, and so are their commands.**  From any state of the system, along any run of
    feeders and clients in which nobody deletes or rotates, no update sets a command and no value of an
    update or a touch carries a quote — with attempts
    failing, feeders crashing and coming back, jobs run and resubmitted: every job of the queue is
    still in the queue; and when its command is stable, what any host's `getjob` returns under its jid
    has that command. -/
theorem jobs_are_kept (cfg : Config ι) (s₀ s : State ι) (h : Reach (· = s₀) (step cfg) Keeping s)
    (r : Row) (hr : r ∈ s₀.jobs) :
    (∃ r' ∈ s.jobs, r'.jid = r.jid ∧ (Stable r → r'.command = r.command)) ∧
    ∀ k job, getjob k s.jobs = some job → job.jid = r.jid → Stable r → job.command = r.command := by
  have hp : Preserved s₀.jobs s.jobs := by
    refine Reach.invariant (I := fun s => Preserved s₀.jobs s.jobs) ?_
      (fun s l t hp hg hst => hp.trans (preserved_step hg hst)) h
    rintro s rfl
    exact Preserved.refl _
  obtain ⟨r', hr', hj⟩ := hp.jids r hr
  refine ⟨⟨r', hr', hj, hp.commands r hr r' hr' hj⟩, fun k job hjob hjid hstable => ?_⟩
  exact hp.commands r hr job (getjob_some hjob).1 hjid hstable

set_option maxRecDepth 4000 in
/-- A job that is started, whose feeder crashes and comes back, and that is resubmitted: the command is
    the one it had. -/
theorem make_is_kept : ∃ s, exec (step oneFeeder)
      [.start () { script := [{ pid := 100, now := "2005-07-02" }] }, .crash (),
       .restart () "2005-07-03", .client (.resubmit "2005-07-04" "node1" {} [.jid 1])] onePending
        = some s ∧
    ∃ r' ∈ s.jobs, r'.jid = 1 ∧ r'.state = some "pending" ∧ r'.command = some "make" := by
  obtain ⟨s, hs, hobs⟩ : ∃ s, exec (step oneFeeder)
      [.start () { script := [{ pid := 100, now := "2005-07-02" }] }, .crash (),
       .restart () "2005-07-03", .client (.resubmit "2005-07-04" "node1" {} [.jid 1])] onePending
        = some s ∧ decide (∀ r ∈ s.jobs.rows, r.state = some "pending") = true :=
    exists_of_any (by decide)
  have halong : Along (step oneFeeder) Keeping
      [.start () { script := [{ pid := 100, now := "2005-07-02" }] }, .crash (),
       .restart () "2005-07-03", .client (.resubmit "2005-07-04" "node1" {} [.jid 1])] onePending :=
    ⟨trivial, fun _ _ => ⟨trivial, fun _ _ => ⟨trivial, fun _ _ => ⟨trivial, fun _ _ => trivial⟩⟩⟩⟩
  have h0 : Reach (· = onePending) (step oneFeeder) Keeping onePending := Reach.init rfl
  have hr := Reach.exec h0 halong hs
  obtain ⟨⟨r', hr', hj, hc⟩, -⟩ := jobs_are_kept oneFeeder onePending s hr _ List.mem_cons_self
  exact ⟨s, hs, r', hr', hj, of_decide_eq_true hobs r' hr', hc (by unfold Stable; decide)⟩

end RubyQueue.System
