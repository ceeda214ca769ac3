/-
  The life cycle of a job.

  Operations that commit at their first attempt, in any order: clients' commands, a live feeder's
  `start_job` of the job `getjob` returns, its `jobisdone` of a child it reaped, feeders crashing,
  and a feeder coming back and burying what its predecessor left (`fill_morgue`).  There is at most
  one live feeder on a host.

  The three updates of the feeders test no state, so what they can do rests on what their callers
  know.  The invariant says it: every row is in one of five states with the columns that go with it
  (`RowOk`), and the children of live feeders run (`Owns`).  From it every step moves rows along
  `Edge` only, and removes no running row.

  `getdeadjobs` knows its host by name, and SQLite compares two names that look like numbers as
  numbers.  So the feeder of `10e0` buries what the live feeder of `1e1` runs
  (`life_cycle_namesakes`), and the runs are those in which nobody comes up among such namesakes.
-/
import RubyQueue.Base.Run
import RubyQueue.Clients
import RubyQueue.Children

namespace RubyQueue.Lifecycle

open RubyQueue.JobQueue RubyQueue.Qdb RubyQueue.Feeder RubyQueue.Run

/-! ## The system -/

/-- The table, and the live feeder of each host. -/
structure State where
  jobs : Jobs
  live : Hostname → Option Own := fun _ => none

/-- One operation. -/
inductive Op
  | client (c : Client)
  | startJob (h : Hostname) (e : Fork)
  | jobIsDone (h : Hostname) (w : Waited)
  | crash (h : Hostname)
  | restart (h : Hostname) (started : String)

/-- One operation that commits; `none` when it is not possible. -/
def step (sqlite : OtherSql) (s : State) : Op → Option State
  | .client c =>
    match c.exec sqlite s.jobs with
    | .ok jobs => some { s with jobs := jobs }
    | .error _ => none
  | .startJob h e =>
    match s.live h, getjob h s.jobs with
    | some o, some job =>
      match startJob h job e s.jobs o with
      | ((jobs, o), none) => some { jobs := jobs, live := Function.update s.live h (some o) }
      | _ => none
    | _, _ => none
  | .jobIsDone h w =>
    match s.live h with
    | none => none
    | some o =>
      match o.children.lookup w.cid with
      | none => none
      | some child =>
        some { jobs := jobisdone (finishJob w child) s.jobs
               live := Function.update s.live h (some (deleteChild (some w.cid) o)) }
  | .crash h => some { s with live := Function.update s.live h none }
  | .restart h started =>
    match s.live h with
    | some _ => none
    | none =>
      some { jobs := fillMorgue h started s.jobs, live := Function.update s.live h (some {}) }

/-- A freshly created queue. -/
def Fresh (s : State) : Prop := s = { jobs := Jobs.empty }

/-- Clients' values and arguments are plain. -/
def PlainOp : Op → Prop
  | .client c => c.Plain
  | _ => True

/-- A feeder comes up when no row runs under another name that is the same number as its own. -/
def Apart (s : State) : Op → Prop
  | .restart h _ => NoNamesake h s.jobs
  | _ => True

/-- Plain values, and no namesakes. -/
def Good (s : State) (op : Op) : Prop := PlainOp op ∧ Apart s op

/-! ## Rows and edges -/

/-- A run of the job is recorded. -/
structure Started (r : Row) : Prop where
  pid : r.pid ≠ none
  started : r.started ≠ none
  runner : r.runner ≠ none
  stdout : r.stdout ≠ none
  stderr : r.stderr ≠ none

/-- No end of a run is recorded. -/
structure NotEnded (r : Row) : Prop where
  finished : r.finished = none
  elapsed : r.elapsed = none
  exitStatus : r.exitStatus = none

/-- An end of a run is recorded. -/
structure Ended (r : Row) : Prop where
  finished : r.finished ≠ none
  elapsed : r.elapsed ≠ none
  exitStatus : r.exitStatus ≠ none

/-- One of the five states, with the columns that go with it. -/
def RowOk (r : Row) : Prop :=
  (Waiting r ∧ Blank r) ∨
  ((r.state = some "running" ∨ r.state = some "dead") ∧ Started r ∧ NotEnded r) ∨
  (r.state = some "finished" ∧ Started r ∧ Ended r)

/-- The changes of state there are; back to pending only in a resubmit. -/
def Edge (resubmit : Prop) (r s : Row) : Prop :=
  s.state = r.state ∨
  (r.state = some "pending" ∧ s.state = some "holding") ∨
  (r.state = some "holding" ∧ s.state = some "pending") ∨
  (r.state = some "pending" ∧ s.state = some "running") ∨
  (r.state = some "dead" ∧ r.restartable ≠ none ∧ s.state = some "running") ∨
  (r.state = some "running" ∧ s.state = some "finished") ∨
  (r.state = some "running" ∧ s.state = some "dead") ∨
  (resubmit ∧ (r.state = some "pending" ∨ r.state = some "holding" ∨ r.state = some "finished" ∨
    r.state = some "dead") ∧ s.state = some "pending")

/-- The operation is a resubmit. -/
def Op.IsResubmit : Op → Prop
  | .client (.resubmit _ _ _ _) => True
  | _ => False

/-- A waiting row has no record of runs. -/
theorem RowOk.blank {r : Row} (h : RowOk r) (hw : Waiting r) : Blank r := by
  rcases h with ⟨-, hb⟩ | ⟨hs, -⟩ | ⟨hs, -⟩
  · exact hb
  · rcases hw with hw | hw <;> rcases hs with hs | hs <;> rw [hw] at hs <;>
      exact absurd hs (by decide)
  · rcases hw with hw | hw <;> rw [hw] at hs <;> exact absurd hs (by decide)

/-- A running or dead row has the record of a run that has not ended. -/
theorem RowOk.open {r : Row} (h : RowOk r)
    (hs : r.state = some "running" ∨ r.state = some "dead") : Started r ∧ NotEnded r := by
  rcases h with ⟨hw, -⟩ | ⟨-, h⟩ | ⟨hf, -⟩
  · rcases hw with hw | hw <;> rcases hs with hs | hs <;> rw [hw] at hs <;>
      exact absurd hs (by decide)
  · exact h
  · rcases hs with hs | hs <;> rw [hf] at hs <;> exact absurd hs (by decide)

/-- What is neither running nor one of the other four states is no row. -/
theorem RowOk.not_running {r : Row} (h : RowOk r) (hn : r.state ≠ some "running") :
    r.state = some "pending" ∨ r.state = some "holding" ∨ r.state = some "finished" ∨
      r.state = some "dead" := by
  rcases h with ⟨hw | hw, -⟩ | ⟨hs | hs, -⟩ | ⟨hs, -⟩
  · exact Or.inl hw
  · exact Or.inr (Or.inl hw)
  · exact absurd hs hn
  · exact Or.inr (Or.inr (Or.inr hs))
  · exact Or.inr (Or.inr (Or.inl hs))

/-! ## What one operation does to the rows -/

/-- Rows move along edges, and what comes out is in order. -/
def Moves (resubmit : Prop) (db db' : Jobs) : Prop :=
  Evolves (fun r s => Edge resubmit r s ∧ RowOk s) New db db'

theorem new_ok {r : Row} (h : New r) : RowOk r := Or.inl h

theorem Moves.rows_ok {resubmit : Prop} {db db' : Jobs} (h : Moves resubmit db db') :
    ∀ s ∈ db', RowOk s := by
  intro s hs
  rcases h.rows s hs with ⟨r, -, -, -, hok⟩ | ⟨-, hnew⟩
  · exact hok
  · exact new_ok hnew

/-- Restrict an edge to the rows of the table, which are in order. -/
theorem moves_of_evolves {resubmit : Prop} {E : Row → Row → Prop} {db db' : Jobs}
    (hok : ∀ r ∈ db, RowOk r) (h : Evolves E New db db')
    (hE : ∀ r s, RowOk r → E r s → Edge resubmit r s ∧ RowOk s) : Moves resubmit db db' := by
  refine ⟨fun s hs => ?_, h.kept⟩
  rcases h.rows s hs with ⟨r, hr, hj, he⟩ | hnew
  · exact Or.inl ⟨r, hr, hj, hE r s (hok r hr) he⟩
  · exact Or.inr hnew

theorem edited_edge {resubmit : Prop} {r s : Row} (hok : RowOk r) (h : Edited r s) :
    Edge resubmit r s ∧ RowOk s := by
  rcases h with rfl | ⟨hr, hs, hrun⟩
  · exact ⟨Or.inl rfl, hok⟩
  · refine ⟨?_, Or.inl ⟨hs, (hok.blank hr).sameRun hrun⟩⟩
    rcases hr with hr | hr <;> rcases hs with hs | hs
    · exact Or.inl (hs.trans hr.symm)
    · exact Or.inr (Or.inl ⟨hr, hs⟩)
    · exact Or.inr (Or.inr (Or.inl ⟨hr, hs⟩))
    · exact Or.inl (hs.trans hr.symm)

theorem restarted_edge {r s : Row} (hok : RowOk r) (h : Restarted r s) :
    Edge True r s ∧ RowOk s := by
  rcases h with rfl | ⟨hr, hs, hblank⟩
  · exact ⟨Or.inl rfl, hok⟩
  · refine ⟨?_, Or.inl ⟨Or.inl hs, hblank⟩⟩
    exact Or.inr (Or.inr (Or.inr (Or.inr (Or.inr (Or.inr (Or.inr
      ⟨trivial, hok.not_running hr, hs⟩))))))

theorem client_moves {sqlite : OtherSql} {c : Client} {db db' : Jobs}
    (hok : ∀ r ∈ db, RowOk r) (hc : c.Plain) (h : c.exec sqlite db = .ok db') :
    Moves (Op.client c).IsResubmit db db' := by
  have hdelete : ∀ {whats : List String}, (∀ what ∈ whats, PlainArg what) →
      delete sqlite false whats db = .ok db' → Moves (Op.client c).IsResubmit db db' := by
    intro whats hp h
    exact moves_of_evolves hok (delete_evolves hp h) fun r s hr he => ⟨Or.inl (he ▸ rfl), he ▸ hr⟩
  cases c with
  | submit now host jobs =>
    exact moves_of_evolves hok (submit_evolves h).1 fun _ _ hr he => edited_edge hr he
  | resubmit now host opts whats =>
    exact moves_of_evolves hok (reSubmit_evolves h).1 fun _ _ hr he => restarted_edge hr he
  | update kvs targets =>
    exact moves_of_evolves hok (update_evolves hc h).1 fun _ _ hr he => edited_edge hr he
  | delete whats => exact hdelete hc h
  | touch now host jobs =>
    exact moves_of_evolves hok (touch_evolves hc h).1 fun _ _ hr he => edited_edge hr he
  | rotate => exact hdelete plainArg_rotate h

/-- Starting the job `getjob` returned. -/
theorem launch_moves {h : Hostname} {db : Jobs} {job : Row} (hok : ∀ r ∈ db, RowOk r)
    (hjob : getjob h db = some job) (e : Fork) :
    Moves False db (jobisrunning (launched h e job) db) := by
  refine (evolves_update fun r hr => ?_).1
  unfold setWhere
  split
  swap
  · exact ⟨Or.inl rfl, hok r hr⟩
  rename_i hjid
  obtain ⟨hmem, hel⟩ := getjob_some hjob
  obtain rfl := Jobs.eq_of_jid hr hmem (beq_iff_eq.mp hjid)
  constructor
  · rcases eligible_iff.mp hel with hp | ⟨hd, hres⟩
    · exact Or.inr (Or.inr (Or.inr (Or.inl ⟨hp, rfl⟩)))
    · exact Or.inr (Or.inr (Or.inr (Or.inr (Or.inl ⟨hd, hres, rfl⟩))))
  · -- the columns of an end are NULL in a waiting row and in a dead one
    have hend : NotEnded r := by
      rcases eligible_iff.mp hel with hp | ⟨hd, -⟩
      · have hb := (hok r hr).blank (Or.inl hp)
        exact ⟨hb.finished, hb.elapsed, hb.exitStatus⟩
      · exact ((hok r hr).open (Or.inr hd)).2
    refine Or.inr (Or.inl ⟨Or.inl rfl, ?_, ⟨hend.finished, hend.elapsed, hend.exitStatus⟩⟩)
    exact ⟨Option.some_ne_none _, Option.some_ne_none _, Option.some_ne_none _,
      Option.some_ne_none _, Option.some_ne_none _⟩

/-- Recording a child whose row runs. -/
theorem jobisdone_moves {h : Hostname} {db : Jobs} {c : Nat} {d : Reaped}
    (hok : ∀ r ∈ db, RowOk r) (hrun : Runs db h c d.child.jid) :
    Moves False db (jobisdone d.job db) := by
  refine (evolves_update fun r hr => ?_).1
  unfold setWhere
  split
  swap
  · exact ⟨Or.inl rfl, hok r hr⟩
  rename_i hjid
  obtain ⟨r', hr', hj, hstate, -⟩ := hrun
  obtain rfl := Jobs.eq_of_jid hr hr' ((beq_iff_eq.mp hjid).trans hj.symm)
  obtain ⟨hst, -⟩ := (hok r hr).open (Or.inl hstate)
  refine ⟨Or.inr (Or.inr (Or.inr (Or.inr (Or.inr (Or.inl ⟨hstate, rfl⟩))))), ?_⟩
  refine Or.inr (Or.inr ⟨rfl, ⟨hst.pid, hst.started, hst.runner, hst.stdout, hst.stderr⟩, ?_⟩)
  exact ⟨Option.some_ne_none _, Option.some_ne_none _, Option.some_ne_none _⟩

/-- Burying what a dead feeder left. -/
theorem fillMorgue_moves (h : Hostname) (started : String) {db : Jobs}
    (hok : ∀ r ∈ db, RowOk r) : Moves False db (fillMorgue h started db) := by
  refine ⟨fun s hs => Or.inl ?_, fun r hr _ => ?_⟩
  · rcases mem_fillMorgue.mp hs with ⟨hs, -⟩ | ⟨r, hr, rfl⟩
    · exact ⟨s, hs, rfl, Or.inl rfl, hok s hs⟩
    · obtain ⟨hmem, hstate, -⟩ := mem_getdeadjobs hr
      obtain ⟨hst, hend⟩ := (hok r hmem).open (Or.inl hstate)
      refine ⟨r, hmem, rfl, ?_, Or.inr (Or.inl ⟨Or.inr rfl, ?_, ?_⟩)⟩
      · exact Or.inr (Or.inr (Or.inr (Or.inr (Or.inr (Or.inr (Or.inl ⟨hstate, rfl⟩))))))
      · exact ⟨hst.pid, hst.started, hst.runner, hst.stdout, hst.stderr⟩
      · exact ⟨hend.finished, hend.elapsed, hend.exitStatus⟩
  · by_cases hdead : r ∈ getdeadjobs h started db
    · exact ⟨_, mem_fillMorgue.mpr (Or.inr ⟨r, hdead, rfl⟩), rfl⟩
    · exact ⟨r, mem_fillMorgue.mpr (Or.inl ⟨hr, hdead⟩), rfl⟩

/-! ## Every sequence of operations -/

/-- The rows are in order, and the children of live feeders run. -/
structure Inv (s : State) : Prop where
  rows : ∀ r ∈ s.jobs, RowOk r
  owns : ∀ h o, s.live h = some o → Owns s.jobs h o.children

/-- Only the feeder on `h` changed, and only rows that do not run on other hosts. -/
theorem owns_update {s : State} (hs : Inv s) {h : Hostname} {jobs : Jobs} {o : Option Own}
    (hf : Frame h s.jobs jobs) (ho : ∀ o', o = some o' → Owns jobs h o'.children) :
    ∀ k o', Function.update s.live h o k = some o' → Owns jobs k o'.children := by
  intro k o' hk
  by_cases hkh : k = h
  · subst hkh
    rw [Function.update_self] at hk
    exact ho o' hk
  · rw [Function.update_of_ne hkh] at hk
    exact fun cid job hl => hf.runs hkh (hs.owns k o' hk cid job hl)

/-- **One operation**: rows move along edges, and the invariant is kept. -/
theorem step_moves {sqlite : OtherSql} {s t : State} {op : Op} (hs : Inv s) (hg : Good s op)
    (h : step sqlite s op = some t) : Moves op.IsResubmit s.jobs t.jobs ∧ Inv t := by
  obtain ⟨hp, hapart⟩ := hg
  cases op with
  | client c =>
    simp only [step] at h
    split at h
    swap
    · cases h
    rename_i jobs hc
    cases h
    have hm := client_moves hs.rows hp hc
    refine ⟨hm, hm.rows_ok, fun k o ho cid job hl => ?_⟩
    obtain ⟨r, hr, hjid, hrun, hrest⟩ := hs.owns k o ho cid job hl
    exact ⟨r, (Client.sameRunning hp hc r hrun).mp hr, hjid, hrun, hrest⟩
  | startJob host e =>
    simp only [step] at h
    split at h
    swap
    · cases h
    rename_i o job ho hjob
    rcases startJob_cases host job e s.jobs o with ⟨o', hraise, -⟩ | hok
    · rw [hraise] at h
      cases h
    · rw [hok] at h
      cases h
      have hm := launch_moves hs.rows hjob e
      refine ⟨hm, hm.rows_ok, owns_update hs (launch_frame hjob e) ?_⟩
      intro o' ho'
      cases ho'
      exact (hs.owns host o ho).launch hjob e
  | jobIsDone host w =>
    simp only [step] at h
    split at h
    · cases h
    rename_i o ho
    split at h
    · cases h
    rename_i child hl
    cases h
    -- the row of the child runs, because the feeder owns it
    have hrun : Runs s.jobs host w.cid (Reaped.mk w child).child.jid :=
      hs.owns host o ho w.cid child hl
    have hm := jobisdone_moves hs.rows hrun
    refine ⟨hm, hm.rows_ok, owns_update hs (jobisdone_frame hrun) ?_⟩
    intro o' ho'
    cases ho'
    exact (hs.owns host o ho).jobisdone ⟨w.cid, hrun, Or.inl rfl⟩
  | crash host =>
    cases h
    refine ⟨?_, hs.rows, owns_update hs (Frame.refl _ _) (by simp)⟩
    exact moves_of_evolves hs.rows (Evolves.refl (fun _ => rfl) s.jobs)
      fun r r' hr he => ⟨Or.inl (he ▸ rfl), he ▸ hr⟩
  | restart host started =>
    simp only [step] at h
    split at h
    · cases h
    cases h
    have hm := fillMorgue_moves host started hs.rows
    refine ⟨hm, hm.rows_ok, owns_update hs (fillMorgue_frame started hapart) ?_⟩
    intro o' ho' cid job hl
    cases ho'
    cases hl

/-- The invariant holds in every state a run reaches. -/
theorem reach_inv {sqlite : OtherSql} {s : State}
    (h : Reach Fresh (step sqlite) Good s) : Inv s := by
  refine Reach.invariant (I := Inv) ?_ ?_ h
  · rintro s rfl
    constructor
    · intro r hr
      cases hr
    · intro h o ho
      cases ho
  · exact fun s op t hs hg hst => (step_moves hs hg hst).2

/-- A feeder comes up, a job is submitted and started. -/
def oneJob : List Op :=
  [.restart node1 "2005-07-01",
   .client (.submit "2005-07-01" "node1" [{ command := some "make" }]),
   .startJob node1 { pid := 100, now := "2005-07-02" }]

/-- Two hosts with names that are numbers. -/
def host1e1 : Hostname := ⟨"1e1", by decide⟩
def host10e0 : Hostname := ⟨"10e0", by decide⟩

/-- A feeder comes up on `1e1` and starts a job; then one comes up on `10e0`. -/
def amongNamesakes : List Op :=
  [.restart host1e1 "2005-07-01",
   .client (.submit "2005-07-01" "1e1" [{ command := some "make" }]),
   .startJob host1e1 { pid := 100, now := "2005-07-02" },
   .restart host10e0 "2005-07-03"]

end RubyQueue.Lifecycle
