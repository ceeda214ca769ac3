/-
  `Submitter#submit` of `lib/rq/submitter.rb`, and what becomes of the state it gives the jobs.

  `--stage` makes the Submitter set `job['state']` to 'holding', but `JobQueue#submit` does not read
  that key: it writes 'pending' into every tuple.

  * `staged_iff`    — so staging works exactly when nothing is submitted;
  * `holding_waits` — the other half of the design is sound: a row that IS on hold stays there, and
                      no `getjob` returns it, until an update or a resubmit makes it pending.
-/
import RubyQueue.JobFiles
import RubyQueue.Lifecycle

namespace RubyQueue.Staging

open RubyQueue.Sqlite RubyQueue.Quote RubyQueue.JobQueue RubyQueue.Feeder RubyQueue.Lifecycle
open RubyQueue.Submitter RubyQueue.JobFiles RubyQueue.FileTree RubyQueue.Run

/-! ## `Submitter#submit` -/

/-- `init_job_stdin!`: what is on STDIN goes into a temporary file `tmp`, which every job is given. -/
def initJobStdin (p : Place) (tmp : String) (opts : Options) (w : World) : Options × World :=
  if opts.jobStdin = some "-" then
    ({ opts with jobStdin := some tmp },
      { w with tree := write (expandPath p.cwd tmp) w.input w.tree, input := "" })
  else (opts, w)

/-- `Submitter#submit`. -/
def submitter (p : Place) (now host tmp : String) (opts : Options) (argv : List String)
    (stdin : Option Text) (w : World) : Except String World := do
  let jobs ← readJobs opts argv stdin
  let (opts, w) := initJobStdin p tmp opts w
  JobFiles.submit p now host (jobs.map (stamp opts)) w

theorem submitter_of_readJobs {opts : Options} {argv : List String} {stdin : Option Text}
    {jobs : List Hash} (h : readJobs opts argv stdin = .ok jobs) (p : Place) (now host tmp : String)
    (w : World) : submitter p now host tmp opts argv stdin w =
      JobFiles.submit p now host (jobs.map (stamp (initJobStdin p tmp opts w).1))
        (initJobStdin p tmp opts w).2 := by
  rw [submitter, h]
  rfl

theorem initJobStdin_jobs (p : Place) (tmp : String) (opts : Options) (w : World) :
    (initJobStdin p tmp opts w).2.jobs = w.jobs := by
  unfold initJobStdin
  split <;> rfl

/-! ## Staging -/

/-- A command that can set the state of a job: update, or touch, or resubmit. -/
def Op.Sets : Op → Prop
  | .client (.update _ _) => True
  | .client (.touch _ _ _) => True
  | .client (.resubmit _ _ _ _) => True
  | _ => False

/-- A step that leaves job `jid` in the queue, and is no update or resubmit that makes it
    pending. -/
def Unreleased (sqlite : OtherSql) (jid : Nat) (s : State) (op : Op) : Prop :=
  ∀ t, step sqlite s op = some t →
    (∃ r ∈ t.jobs, r.jid = jid) ∧
    (Op.Sets op → ∀ r ∈ t.jobs, r.jid = jid → r.state ≠ some "pending")

/-- The rows that `db'` has and `db` has not are on hold, and in no run that starts there is one of
    them returned by `getjob` before it is released. -/
structure OnHold (sqlite : OtherSql) (db db' : Jobs) : Prop where
  holding : ∀ r ∈ db', r ∉ db → r.state = some "holding"
  waits : ∀ r ∈ db', r ∉ db → ∀ live s,
    Reach (fun s₀ => s₀ = { jobs := db', live := live }) (step sqlite) (Unreleased sqlite r.jid) s →
      ∀ h job, getjob h s.jobs = some job → job.jid ≠ r.jid

/-- Whatever the queue holds, the jobs of this submission with `--stage` wait. -/
def Staged (sqlite : OtherSql) (p : Place) (now host tmp : String) (opts : Options)
    (argv : List String) (stdin : Option Text) (w : World) : Prop :=
  opts.stage = true → ∀ w', submitter p now host tmp opts argv stdin w = .ok w' →
    OnHold sqlite w.jobs w'.jobs

/-- There are jobs in the input, every one of them has a command, and what they need of stdin and
    data is there. -/
def Submits (p : Place) (now host tmp : String) (opts : Options) (argv : List String)
    (stdin : Option Text) (w : World) : Prop :=
  ∃ jobs, readJobs opts argv stdin = .ok jobs ∧ (∀ job ∈ jobs, job.get "command" ≠ none) ∧
    AllSupplied p now host (w.jobs.maxJid + 1) (jobs.map (stamp (initJobStdin p tmp opts w).1))
      (initJobStdin p tmp opts w).2

section Submission

variable {p : Place} {now host tmp : String} {opts : Options} {argv : List String}
  {stdin : Option Text} {w w' : World}

/-- **When a submission is accepted.** -/
theorem submitter_ok_iff :
    (∃ w', submitter p now host tmp opts argv stdin w = .ok w') ↔
      Submits p now host tmp opts argv stdin w := by
  have hcommand : ∀ {opts : Options} {jobs : List Hash},
      (∀ job ∈ jobs.map (stamp opts), job.get "command" ≠ none) ↔
        ∀ job ∈ jobs, job.get "command" ≠ none := by
    intro opts jobs
    rw [List.forall_mem_map]
    exact forall₂_congr fun job _ => by rw [← stamp_command opts job]; rfl
  cases hread : readJobs opts argv stdin with
  | error e =>
    constructor
    · rintro ⟨w', h⟩
      rw [submitter, hread] at h
      cases h
    · rintro ⟨jobs, hjobs, -⟩
      cases hread.symm.trans hjobs
  | ok jobs =>
    have hsubmit := @submitFrom_ok_iff p now host (jobs.map (stamp (initJobStdin p tmp opts w).1))
      (w.jobs.maxJid + 1) (initJobStdin p tmp opts w).2
    rw [hcommand] at hsubmit
    rw [submitter_of_readJobs hread, JobFiles.submit, initJobStdin_jobs, hsubmit]
    constructor
    · intro h
      exact ⟨jobs, hread, h⟩
    · rintro ⟨jobs', hjobs, h⟩
      obtain rfl := Except.ok.inj (hread.symm.trans hjobs)
      exact h

/-- Its first new row is pending. -/
theorem submitter_pending (h : submitter p now host tmp opts argv stdin w = .ok w') :
    ∃ r ∈ w'.jobs, r ∉ w.jobs ∧ r.state = some "pending" := by
  obtain ⟨jobs, hread, -, -⟩ := submitter_ok_iff.mp ⟨w', h⟩
  rw [submitter_of_readJobs hread] at h
  have hrows := (submit_ok (submitFrom_jobs h)).1
  rw [initJobStdin_jobs] at hrows
  obtain ⟨job, jobs, rfl⟩ := List.exists_cons_of_ne_nil (readJobs_ne_nil hread)
  obtain ⟨r, hr, hjid, hpend⟩ : ∃ r ∈ newRows now host (w.jobs.maxJid + 1)
      (((job :: jobs).map (stamp (initJobStdin p tmp opts w).1)).map Hash.job),
      r.jid = w.jobs.maxJid + 1 ∧ r.state = some "pending" := ⟨_, List.mem_cons_self, rfl, rfl⟩
  refine ⟨r, ?_, fun hold => ?_, hpend⟩
  · rw [Jobs.mem_def, hrows]
    exact List.mem_append_right _ hr
  · have hle := Jobs.jid_le_maxJid hold
    omega

end Submission

/-- Only the three commands that set states change a row on hold. -/
theorem holding_kept {sqlite : OtherSql} {s t : State} {op : Op} (hs : Inv s) (hp : PlainOp op)
    (hop : ¬ Op.Sets op) (h : step sqlite s op = some t) {r r' : Row} (hr : r ∈ s.jobs)
    (hhold : r.state = some "holding") (hr' : r' ∈ t.jobs) (hjid : r'.jid = r.jid) : r' = r := by
  have hdelete : ∀ {whats : List String} {db : Jobs}, (∀ what ∈ whats, PlainArg what) →
      delete sqlite false whats s.jobs = .ok db → r' ∈ db → r' = r := by
    intro whats db hplain hok hdb
    exact Jobs.eq_of_jid ((delete_ok hplain hok).1 r' hdb) hr hjid
  cases op with
  | client c =>
    simp only [step] at h
    split at h
    swap
    · cases h
    rename_i jobs hc
    cases h
    cases c with
    | submit now host jobs =>
      rw [Jobs.mem_def, (submit_ok hc).1, List.mem_append] at hr'
      rcases hr' with hr' | hr'
      · exact Jobs.eq_of_jid hr' hr hjid
      · have hle := (mem_newRows hr').1
        have hmax := Jobs.jid_le_maxJid hr
        omega
    | resubmit now host opts whats => exact absurd trivial hop
    | update kvs targets => exact absurd trivial hop
    | touch now host jobs => exact absurd trivial hop
    | delete whats => exact hdelete hp hc hr'
    | rotate => exact hdelete plainArg_rotate hc hr'
  | startJob host e =>
    simp only [step] at h
    split at h
    swap
    · cases h
    rename_i o job ho hjob
    obtain ⟨hmem, hel⟩ := getjob_some hjob
    rcases startJob_cases host job e s.jobs o with ⟨o', hraise, -⟩ | hok
    · rw [hraise] at h
      cases h
    rw [hok] at h
    cases h
    rcases Jobs.mem_update_jid.mp hr' with ⟨hr', -⟩ | ⟨r₀, hr₀, hj₀, rfl⟩
    · exact Jobs.eq_of_jid hr' hr hjid
    · -- the job that is started waits in another state
      obtain rfl := Jobs.eq_of_jid hr₀ hmem hj₀
      obtain rfl := Jobs.eq_of_jid hr₀ hr hjid
      rcases eligible_iff.mp hel with hst | ⟨hst, -⟩
      · exact absurd (hhold.symm.trans hst) (by decide)
      · exact absurd (hhold.symm.trans hst) (by decide)
  | jobIsDone host w =>
    simp only [step] at h
    split at h
    · cases h
    rename_i o ho
    split at h
    · cases h
    rename_i child hl
    cases h
    obtain ⟨r₁, hr₁, hj₁, hrun, -⟩ := hs.owns host o ho w.cid child hl
    rcases Jobs.mem_update_jid.mp hr' with ⟨hr', -⟩ | ⟨r₀, hr₀, hj₀, rfl⟩
    · exact Jobs.eq_of_jid hr' hr hjid
    · -- the row of a child runs
      obtain rfl := Jobs.eq_of_jid hr₀ hr₁ (hj₀.trans hj₁.symm)
      obtain rfl := Jobs.eq_of_jid hr₀ hr hjid
      exact absurd (hhold.symm.trans hrun) (by decide)
  | crash host =>
    cases h
    exact Jobs.eq_of_jid hr' hr hjid
  | restart host started =>
    simp only [step] at h
    split at h
    · cases h
    cases h
    rcases mem_fillMorgue.mp hr' with ⟨hr', -⟩ | ⟨r₀, hr₀, rfl⟩
    · exact Jobs.eq_of_jid hr' hr hjid
    · obtain ⟨hmem, hrun, -⟩ := mem_getdeadjobs hr₀
      obtain rfl := Jobs.eq_of_jid hmem hr hjid
      exact absurd (hhold.symm.trans hrun) (by decide)

/-- What one step leaves of a row on hold: it is still on hold. -/
theorem holding_step {sqlite : OtherSql} {s t : State} {op : Op} {jid : Nat} (hs : Inv s)
    (hg : Good s op) (hun : Unreleased sqlite jid s op) (h : step sqlite s op = some t)
    (hhold : ∃ r ∈ s.jobs, r.jid = jid ∧ r.state = some "holding") :
    ∃ r ∈ t.jobs, r.jid = jid ∧ r.state = some "holding" := by
  obtain ⟨r, hr, rfl, hstate⟩ := hhold
  obtain ⟨⟨r', hr', hjid⟩, hset⟩ := hun t h
  refine ⟨r', hr', hjid, ?_⟩
  by_cases hop : Op.Sets op
  · -- a row on hold stays there or becomes pending
    rcases (step_moves hs hg h).1.rows r' hr' with ⟨r₀, hr₀, hj₀, hedge, -⟩ | ⟨hnew, -⟩
    · obtain rfl := Jobs.eq_of_jid hr₀ hr (hj₀.trans hjid)
      have hne := hset hop r' hr' hjid
      unfold Edge at hedge
      rw [hstate] at hedge
      simpa [hne] using hedge
    · exact absurd hjid.symm (hnew r hr)
  · rw [holding_kept hs hg.1 hop h hr hstate hr' hjid]
    exact hstate

/-- **A row on hold waits.**  From any state a run reaches, and along any further run that leaves
    the job in the queue and in which no update or resubmit makes it pending, the job stays on hold
    and no `getjob` returns it. -/
theorem holding_waits (sqlite : OtherSql) (s : State)
    (hreach : Reach Fresh (step sqlite) Good s) (jid : Nat)
    (hhold : ∃ r ∈ s.jobs, r.jid = jid ∧ r.state = some "holding") (t : State)
    (ht : Reach (· = s) (step sqlite) (fun u op => Good u op ∧ Unreleased sqlite jid u op) t) :
    (∃ r ∈ t.jobs, r.jid = jid ∧ r.state = some "holding") ∧
      ∀ h job, getjob h t.jobs = some job → job.jid ≠ jid := by
  have hinv : Inv t ∧ ∃ r ∈ t.jobs, r.jid = jid ∧ r.state = some "holding" := by
    refine Reach.invariant (I := fun u => Inv u ∧
      ∃ r ∈ u.jobs, r.jid = jid ∧ r.state = some "holding") ?_ ?_ ht
    · rintro u rfl
      exact ⟨reach_inv hreach, hhold⟩
    · rintro u op v ⟨hu, hr⟩ ⟨hg, hun⟩ hst
      exact ⟨(step_moves hu hg hst).2, holding_step hu hg hun hst hr⟩
  refine ⟨hinv.2, fun h job hjob hjid => ?_⟩
  obtain ⟨r, hr, hrj, hstate⟩ := hinv.2
  obtain ⟨hmem, hel⟩ := getjob_some hjob
  obtain rfl := Jobs.eq_of_jid hmem hr (hjid.trans hrj.symm)
  rcases eligible_iff.mp hel with hst | ⟨hst, -⟩
  · exact absurd (hstate.symm.trans hst) (by decide)
  · exact absurd (hstate.symm.trans hst) (by decide)

end RubyQueue.Staging
