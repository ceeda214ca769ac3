/-
  `@children` and the table: the one relation between them that everything else follows from.

  `Owns db h children`: every entry `cid ↦ job` of a feeder on host `h` has its row running, on `h`,
  with pid `cid`.  Since a row has one runner and one pid, no jid can then be in two tables, or
  twice in one.  A launch, the recording of a finished child and the taking of another keep it, and
  none of them touches a running row of another host (`Frame`).
-/
import RubyQueue.Feeder

namespace RubyQueue.Feeder

open RubyQueue.JobQueue RubyQueue.Qdb

/-- Every child of the feeder on `h` runs a row that says so. -/
def Owns (db : Jobs) (h : Hostname) (children : Children) : Prop :=
  ∀ cid job, children.lookup cid = some job → Runs db h cid job.jid

/-- The current child of `reap_jobs`: its row still runs, and once the child is deleted no entry
    of its pid is left. -/
def Current (db : Jobs) (h : Hostname) (o : Own) (cid : Option Nat) (d : Reaped) : Prop :=
  ∃ c, Runs db h c d.child.jid ∧ (cid = some c ∨ (cid = none ∧ c ∉ o.children))

/-- A completion is recorded: the row is finished, with the exit status of its child. -/
def Recorded (db : Jobs) (d : Reaped) : Prop :=
  ∃ r ∈ db, r.jid = d.child.jid ∧ r.state = some "finished" ∧
    r.exitStatus = spliced d.job.exitStatus

theorem Owns.mono {db : Jobs} {h : Hostname} {children children' : Children}
    (hsub : ∀ cid job, children'.lookup cid = some job → children.lookup cid = some job)
    (ho : Owns db h children) : Owns db h children' :=
  fun cid job hl => ho cid job (hsub cid job hl)

theorem lookup_deleteChild {cid : Option Nat} {o : Own} {c : Nat} {job : Row}
    (h : (deleteChild cid o).children.lookup c = some job) :
    o.children.lookup c = some job ∧ cid ≠ some c := by
  cases cid with
  | none => exact ⟨h, by simp⟩
  | some k =>
    have h : (o.children.erase k).lookup c = some job := h
    by_cases hk : c = k
    · rw [hk, AList.lookup_erase] at h
      cases h
    · rw [AList.lookup_erase_ne hk] at h
      exact ⟨h, fun e => hk (Option.some.inj e).symm⟩

/-! ## Launching a job -/

section Launch

variable {h : Hostname} {db : Jobs} {job : Row} (hjob : getjob h db = some job) (e : Fork)
include hjob

/-- A running row is not the row `getjob` returned. -/
theorem jid_ne_of_running {r : Row} (hr : r ∈ db) (hrun : r.state = some "running") :
    r.jid ≠ job.jid := by
  intro heq
  obtain ⟨hmem, hel⟩ := getjob_some hjob
  obtain rfl := Jobs.eq_of_jid hr hmem heq
  exact eligible_not_running hel hrun

/-- After a launch the row of the job runs on `h` with the pid of the child. -/
theorem launch_runs : Runs (jobisrunning (launched h e job) db) h e.pid job.jid := by
  obtain ⟨hmem, -⟩ := getjob_some hjob
  exact ⟨_, Jobs.mem_update_jid.mpr (Or.inr ⟨job, hmem, rfl, rfl⟩), rfl, rfl, rfl, rfl⟩

/-- Rows that were not waiting are not touched. -/
theorem mem_launch {r : Row} (hr : r ∈ db) (hel : eligible r = false) :
    r ∈ jobisrunning (launched h e job) db := by
  refine Jobs.mem_update_jid.mpr (Or.inl ⟨hr, fun heq => ?_⟩)
  obtain ⟨hmem, hel'⟩ := getjob_some hjob
  obtain rfl := Jobs.eq_of_jid hr hmem heq
  rw [hel] at hel'
  cases hel'

theorem launch_frame : Frame h db (jobisrunning (launched h e job) db) := by
  intro r hrun hhost
  constructor
  · intro hr
    exact Jobs.mem_update_jid.mpr (Or.inl ⟨hr, jid_ne_of_running hjob hr hrun⟩)
  · intro hr
    rcases Jobs.mem_update_jid.mp hr with ⟨hr, -⟩ | ⟨r', -, -, rfl⟩
    · exact hr
    · exact absurd rfl hhost

/-- What ran before still runs. -/
theorem Runs.launch {k : Hostname} {cid jid : Nat} (hr : Runs db k cid jid) :
    Runs (jobisrunning (launched h e job) db) k cid jid := by
  obtain ⟨r, hr, hjid, hrun, hrest⟩ := hr
  exact ⟨r, Jobs.mem_update_jid.mpr (Or.inl ⟨hr, jid_ne_of_running hjob hr hrun⟩), hjid, hrun, hrest⟩

theorem Owns.launch {o : Own} (ho : Owns db h o.children) :
    Owns (jobisrunning (launched h e job) db) h (o.launch h e job).children := by
  intro cid j hl
  have hl : (o.children.insert e.pid (launched h e job)).lookup cid = some j := hl
  by_cases hc : cid = e.pid
  · subst hc
    rw [AList.lookup_insert] at hl
    cases hl
    exact launch_runs hjob e
  · rw [AList.lookup_insert_ne hc] at hl
    exact Runs.launch hjob e (ho cid j hl)

theorem Recorded.launch {d : Reaped} (hd : Recorded db d) :
    Recorded (jobisrunning (launched h e job) db) d := by
  obtain ⟨r, hr, hjid, hstate, hexit⟩ := hd
  refine ⟨r, mem_launch hjob e hr ?_, hjid, hstate, hexit⟩
  rw [← Bool.not_eq_true, eligible_iff, hstate]
  simp

end Launch

/-! ## Recording a finished child -/

section Done

variable {h : Hostname} {db : Jobs} {c : Nat} {d : Reaped} (hcur : Runs db h c d.child.jid)
include hcur

/-- The row of the child is recorded. -/
theorem recorded_jobisdone : Recorded (jobisdone d.job db) d := by
  obtain ⟨r, hr, hjid, -⟩ := hcur
  exact ⟨_, Jobs.mem_update_jid.mpr (Or.inr ⟨r, hr, hjid, rfl⟩), hjid, rfl, rfl⟩

/-- Other rows stay. -/
theorem mem_jobisdone {r : Row} (hr : r ∈ db)
    (hne : r.state ≠ some "running" ∨ r.runner ≠ some h.name ∨ r.pid ≠ some (toString c)) :
    r ∈ jobisdone d.job db := by
  refine Jobs.mem_update_jid.mpr (Or.inl ⟨hr, fun heq => ?_⟩)
  obtain ⟨s, hs, hjid, hrun, hhost, hpid⟩ := hcur
  obtain rfl := Jobs.eq_of_jid hr hs (heq.trans hjid.symm)
  rcases hne with hne | hne | hne
  · exact hne hrun
  · exact hne hhost
  · exact hne hpid

theorem jobisdone_frame : Frame h db (jobisdone d.job db) := by
  intro r hrun hhost
  constructor
  · intro hr
    exact mem_jobisdone hcur hr (Or.inr (Or.inl hhost))
  · intro hr
    rcases Jobs.mem_update_jid.mp hr with ⟨hr, -⟩ | ⟨r', -, -, rfl⟩
    · exact hr
    · exact absurd hrun (by show some "finished" ≠ _; decide)

/-- A row that runs with another pid still runs. -/
theorem Runs.jobisdone {cid jid : Nat} (hr : Runs db h cid jid) (hne : cid ≠ c) :
    Runs (JobQueue.jobisdone d.job db) h cid jid := by
  obtain ⟨r, hr, hjid, hrun, hhost, hpid⟩ := hr
  refine ⟨r, mem_jobisdone hcur hr (Or.inr (Or.inr ?_)), hjid, hrun, hhost, hpid⟩
  rw [hpid]
  exact fun heq => hne (Sqlite.toString_inj.mp (Option.some.inj heq))

theorem Recorded.jobisdone {d' : Reaped} (hd : Recorded db d') :
    Recorded (JobQueue.jobisdone d.job db) d' := by
  obtain ⟨r, hr, hjid, hstate, hexit⟩ := hd
  refine ⟨r, mem_jobisdone hcur hr (Or.inl ?_), hjid, hstate, hexit⟩
  rw [hstate]
  decide

end Done

theorem Owns.jobisdone {h : Hostname} {db : Jobs} {o : Own} {cid : Option Nat} {d : Reaped}
    (ho : Owns db h o.children) (hcur : Current db h o cid d) :
    Owns (JobQueue.jobisdone d.job db) h (deleteChild cid o).children := by
  obtain ⟨c, hc, hcid⟩ := hcur
  intro k j hl
  obtain ⟨hlook, hne⟩ := lookup_deleteChild hl
  refine Runs.jobisdone hc (ho k j hlook) ?_
  rintro rfl
  rcases hcid with rfl | ⟨rfl, hnot⟩
  · exact hne rfl
  · exact hnot (AList.lookup_isSome.mp (by rw [hlook]; rfl))

/-! ## Taking a child -/

/-- `finish_job` changes the job a child stands for, not which job it is. -/
theorem Owns.take {h : Hostname} {db : Jobs} {children : Children} {w : Waited} {child : Row}
    (ho : Owns db h children) (hl : children.lookup w.cid = some child) :
    Owns db h (children.insert w.cid (finishJob w child)) ∧ Runs db h w.cid child.jid := by
  have hchild := ho w.cid child hl
  refine ⟨?_, hchild⟩
  intro cid j hj
  by_cases hc : cid = w.cid
  · subst hc
    rw [AList.lookup_insert] at hj
    cases hj
    exact hchild
  · rw [AList.lookup_insert_ne hc] at hj
    exact ho cid j hj

/-! ## The whole block -/

/-- **What a block of `start_jobs` keeps.** -/
theorem startJobs_owns {h : Hostname} {maxFeed : Int} {script : List Fork} {db db' : Jobs}
    {o o' : Own} (hr : startJobs h maxFeed script db o = ((db', o'), none))
    (ho : Owns db h o.children) : Owns db' h o'.children ∧ Frame h db db' := by
  refine startJobs_rule (I := fun jobs o => Owns jobs h o.children ∧ Frame h db jobs) ?_ hr
    ⟨ho, Frame.refl h db⟩
  rintro jobs o job e ⟨ho, hf⟩ - hjob
  exact ⟨ho.launch hjob e, hf.trans (launch_frame hjob e)⟩

/-- **What a block of `reap_jobs` keeps**, and that it records every child it reaps. -/
theorem reapLoop_owns {h : Hostname} {maxFeed : Int} {reapOnly : Bool} {turns : List Turn}
    {loopno : Nat} {db db' : Jobs} {o o' : Own} {v v' : Vars}
    (hr : reapLoop h maxFeed reapOnly turns loopno db (o, v) = ((db', (o', v')), none))
    (ho : Owns db h o.children) (hcur : ∀ d, v.job = some d → Current db h o v.cid d) :
    Owns db' h o'.children ∧ Frame h db db' ∧
      ∃ new, v'.reaped = v.reaped ++ new ∧ ∀ d ∈ new, Recorded db' d := by
  refine reapLoop_rule
    (I := fun jobs o l => Owns jobs h o.children ∧ Frame h db jobs ∧
      ∃ new, l = v.reaped ++ new ∧ ∀ d ∈ new, Recorded jobs d)
    (C := fun jobs o cid d => Current jobs h o cid d) ?_ ?_ ?_ hr
    ⟨ho, Frame.refl h db, [], by simp, by simp⟩ hcur
  · -- the current child is recorded
    rintro jobs o cid l d ⟨ho, hf, new, rfl, hrec⟩ hcur
    obtain ⟨c, hc, -⟩ := id hcur
    refine ⟨ho.jobisdone hcur, hf.trans (jobisdone_frame hc), new ++ [d], by simp, ?_⟩
    intro d' hd'
    rcases List.mem_append.mp hd' with hd' | hd'
    · exact Recorded.jobisdone hc (hrec d' hd')
    · obtain rfl := List.mem_singleton.mp hd'
      exact recorded_jobisdone hc
  · -- a launch
    rintro jobs o l job e ⟨ho, hf, new, rfl, hrec⟩ - hjob
    exact ⟨ho.launch hjob e, hf.trans (launch_frame hjob e), new, rfl,
      fun d hd => Recorded.launch hjob e (hrec d hd)⟩
  · -- another child
    rintro jobs o l w child ⟨ho, hf, hnew⟩ hl
    obtain ⟨ho', hchild⟩ := ho.take hl
    exact ⟨⟨ho', hf, hnew⟩, w.cid, hchild, Or.inl rfl⟩

end RubyQueue.Feeder
