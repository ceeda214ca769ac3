/-
  The clients' commands: submit, `ReSubmitter#resubmit`, update, delete, `Toucher#touch` and the
  deletion `Rotater#rotate` makes in the queue itself.

  `Client.exec` is one transaction of a client on the table.  What it can do to a row is said once,
  with `Evolves E N db db'`: every row of `db'` comes from the row of the same jid along `E` or is
  new and meets `N`, and no running row has gone.  The edges are

  * `Edited`    — pending and holding rows, whose record of runs stays (`update`, `touch`);
  * `Restarted` — rows that do not run, back to a blank pending row (`resubmit`).
-/
import RubyQueue.JobQueue

namespace RubyQueue.JobQueue

open RubyQueue.Sqlite RubyQueue.Quote RubyQueue.Raise

/-! ## `list` -/

/-- An argument of `JobQueue#list`. -/
inductive ListArg
  | jid (n : Nat)
  | text (s : String)
deriving DecidableEq, Repr

/-- `state=#{ QDB::q what }`. -/
def stateIs (what : String) (r : Row) : Bool :=
  match storedText (some what) with
  | none => false
  | some w => eqLit r.state w

/-- The `where` clause of one argument.  `jid='…'` holds only of digits and nothing else. -/
def ListArg.selects (r : Row) : ListArg → Bool
  | .jid n => r.jid == n
  | .text s =>
    let t := s.toList
    if letterStarts 'p' t then stateIs "pending" r
    else if letterStarts 'h' t then stateIs "holding" r
    else if letterStarts 'r' t then stateIs "running" r
    else if letterStarts 'f' t then stateIs "finished" r
    else if letterStarts 'd' t then stateIs "dead" r
    else if (lines t).any (fun l => allDigits (strip l)) then
      allDigits t && r.jid == digitsValue t
    else stateIs s r

/-- `JobQueue#list`. -/
def list (whats : List ListArg) (db : Jobs) : List Row :=
  let whats := if whats.isEmpty || whats.contains (.text "all") then
      ["pending", "running", "finished", "dead"].map ListArg.text
    else whats
  db.rows.filter fun r => whats.any (·.selects r)

/-! ## `ReSubmitter#resubmit` -/

/-- The options of `resubmit` that were given, with their values. -/
structure Overrides where
  priority : Option (Option String) := none
  tag : Option (Option String) := none
  runner : Option (Option String) := none
  restartable : Option (Option String) := none
deriving DecidableEq, Repr

/-- `job['priority'] = @priority if @options.has_key?('priority')`, and so on. -/
def Overrides.apply (o : Overrides) (job : Row) : Row :=
  { job with priority := o.priority.getD job.priority, tag := o.tag.getD job.tag,
             runner := o.runner.getD job.runner,
             restartable := o.restartable.getD job.restartable }

/-- `job['state'] =~ %r/running/io`. -/
def saysRunning (r : Row) : Bool :=
  r.state.any fun s => decide ("running".toList <:+: s.toList.map Char.toLower)

/-- `ReSubmitter#resubmit`. -/
def reSubmit (now host : String) (opts : Overrides) (whats : List ListArg) (db : Jobs) :
    Except String Jobs :=
  (list whats db).foldlM (fun db job =>
    if saysRunning job then .ok db else resubmit now host (opts.apply job) db) db

/-! ## `Toucher#touch` -/

/-- The text and the tag two jobs are told apart by. -/
def touchKey (command : String) (tag : Option String) : Text × Text :=
  (stripText command.toList, stripText (tag.getD "").toList)

/-- The keys `update_job` passes on. -/
def touchKvs (job : JobHash) : List (String × Option String) :=
  [("priority", job.priority), ("runner", job.runner), ("restartable", job.restartable)].filter
    fun kv => kv.2.isSome

/-- One job of `touch`: update the pending job of that command and tag, or submit it. -/
def touchOne (sqlite : OtherSql) (now host : String) (pending : List Row) (db : Jobs)
    (job : JobHash) : Except String Jobs :=
  match job.command with
  | none => .error "undefined method strip for nil"
  | some c =>
    match (pending.filter fun r =>
        r.command.any fun c' => touchKey c' r.tag == touchKey c job.tag).getLast? with
    | some r => update sqlite (touchKvs job) [.jid r.jid] db
    | none => submit now host [job] db

/-- `Toucher#touch` on the table, for the jobs its command line and input give it; with the files it is
    `Toucher.touch`. -/
def touch (sqlite : OtherSql) (now host : String) (jobs : List JobHash) (db : Jobs) :
    Except String Jobs :=
  let pending := list [.text "pending"] db
  if pending.any (·.command.isNone) then .error "undefined method strip for nil"
  else jobs.foldlM (touchOne sqlite now host pending) db

/-! ## One client transaction -/

/-- A command of a client. -/
inductive Client
  | submit (now host : String) (jobs : List JobHash)
  | resubmit (now host : String) (opts : Overrides) (whats : List ListArg)
  | update (kvs : List (String × Option String)) (targets : List Target)
  | delete (whats : List String)
  | touch (now host : String) (jobs : List JobHash)
  | rotate
deriving DecidableEq, Repr

/-- What it does to the table.  `rotate` is the deletion in the queue that is rotated. -/
def Client.exec (sqlite : OtherSql) : Client → Jobs → Except String Jobs
  | .submit now host jobs => JobQueue.submit now host jobs
  | .resubmit now host opts whats => reSubmit now host opts whats
  | .update kvs targets => JobQueue.update sqlite kvs targets
  | .delete whats => JobQueue.delete sqlite false whats
  | .touch now host jobs => JobQueue.touch sqlite now host jobs
  | .rotate => JobQueue.delete sqlite false ["dead", "finished"]

/-- The command stays within the statements it means to make: no value of an `update` carries a
    quote, and an argument of `delete` is a jid or a word. -/
def Client.Plain : Client → Prop
  | .update kvs _ => QuoteFree kvs
  | .delete whats => ∀ what ∈ whats, PlainArg what
  | .touch _ _ jobs => ∀ job ∈ jobs, QuoteFree (touchKvs job)
  | _ => True

/-! ## How a table evolves -/

/-- Rows move along `E`, new rows meet `N`, and no running row is removed. -/
structure Evolves (E : Row → Row → Prop) (N : Row → Prop) (db db' : Jobs) : Prop where
  rows : ∀ s ∈ db', (∃ r ∈ db, r.jid = s.jid ∧ E r s) ∨ ((∀ r ∈ db, r.jid ≠ s.jid) ∧ N s)
  kept : ∀ r ∈ db, r.state = some "running" → ∃ s ∈ db', s.jid = r.jid

/-- All jids of `db` are in `db'`. -/
def KeepsJids (db db' : Jobs) : Prop := ∀ r ∈ db, ∃ s ∈ db', s.jid = r.jid

theorem KeepsJids.trans {db db' db'' : Jobs} (h : KeepsJids db db') (k : KeepsJids db' db'') :
    KeepsJids db db'' := by
  intro r hr
  obtain ⟨s, hs, hsr⟩ := h r hr
  obtain ⟨t, ht, hts⟩ := k s hs
  exact ⟨t, ht, hts.trans hsr⟩

theorem Evolves.refl {E : Row → Row → Prop} {N : Row → Prop} (hE : ∀ r, E r r) (db : Jobs) :
    Evolves E N db db :=
  ⟨fun s hs => Or.inl ⟨s, hs, rfl, hE s⟩, fun r hr _ => ⟨r, hr, rfl⟩⟩

theorem Evolves.mono {E E' : Row → Row → Prop} {N N' : Row → Prop} {db db' : Jobs}
    (h : Evolves E N db db') (hE : ∀ r s, E r s → E' r s) (hN : ∀ s, N s → N' s) :
    Evolves E' N' db db' := by
  refine ⟨fun s hs => ?_, h.kept⟩
  rcases h.rows s hs with ⟨r, hr, hj, he⟩ | ⟨hnew, hn⟩
  · exact Or.inl ⟨r, hr, hj, hE r s he⟩
  · exact Or.inr ⟨hnew, hN s hn⟩

/-- Steps that delete nothing compose, when the edges do. -/
theorem Evolves.trans {E : Row → Row → Prop} {N : Row → Prop} {db db' db'' : Jobs}
    (hE : ∀ r s t, E r s → E s t → E r t) (hN : ∀ s t, N s → E s t → N t)
    (h : Evolves E N db db') (hk : KeepsJids db db') (k : Evolves E N db' db'')
    (kk : KeepsJids db' db'') : Evolves E N db db'' := by
  refine ⟨fun t ht => ?_, fun r hr _ => hk.trans kk r hr⟩
  rcases k.rows t ht with ⟨s, hs, hst, hest⟩ | ⟨hnew, hn⟩
  · rcases h.rows s hs with ⟨r, hr, hrs, hers⟩ | ⟨hnew, hn⟩
    · exact Or.inl ⟨r, hr, hrs.trans hst, hE r s t hers hest⟩
    · exact Or.inr ⟨fun r hr heq => hnew r hr (heq.trans hst.symm), hN s t hn hest⟩
  · refine Or.inr ⟨fun r hr heq => ?_, hn⟩
    obtain ⟨s, hs, hsr⟩ := hk r hr
    exact hnew s hs (hsr.trans heq)

/-- An update moves each row along `setWhere`. -/
theorem evolves_update {E : Row → Row → Prop} {N : Row → Prop} {p : Row → Bool} {f : Row → Row}
    {db : Jobs} (hE : ∀ r ∈ db, E r (setWhere p f r)) :
    Evolves E N db (db.update p f) ∧ KeepsJids db (db.update p f) := by
  have hk : KeepsJids db (db.update p f) :=
    fun r hr => ⟨_, Jobs.mem_update.mpr ⟨r, hr, rfl⟩, setWhere_jid p f r⟩
  refine ⟨⟨fun s hs => ?_, fun r hr _ => hk r hr⟩, hk⟩
  obtain ⟨r, hr, rfl⟩ := Jobs.mem_update.mp hs
  exact Or.inl ⟨r, hr, (setWhere_jid p f r).symm, hE r hr⟩

/-! ## The edges of the clients -/

/-- Pending or holding. -/
def Waiting (r : Row) : Prop := r.state = some "pending" ∨ r.state = some "holding"

/-- Nothing is recorded of a run. -/
structure Blank (r : Row) : Prop where
  started : r.started = none
  finished : r.finished = none
  elapsed : r.elapsed = none
  pid : r.pid = none
  exitStatus : r.exitStatus = none
  stdout : r.stdout = none
  stderr : r.stderr = none

theorem Blank.sameRun {r s : Row} (h : Blank r) (k : SameRun r s) : Blank s :=
  ⟨k.started.trans h.started, k.finished.trans h.finished, k.elapsed.trans h.elapsed,
    k.pid.trans h.pid, k.exitStatus.trans h.exitStatus, k.stdout.trans h.stdout,
    k.stderr.trans h.stderr⟩

/-- A row as `submit` makes it, perhaps put on hold since. -/
def New (r : Row) : Prop := Waiting r ∧ Blank r

/-- An edit: a waiting row still waits, and its record of runs is the same. -/
def Edited (r s : Row) : Prop := s = r ∨ (Waiting r ∧ Waiting s ∧ SameRun r s)

/-- A restart: a row that does not run becomes a blank pending row. -/
def Restarted (r s : Row) : Prop :=
  s = r ∨ (r.state ≠ some "running" ∧ s.state = some "pending" ∧ Blank s)

theorem Edited.trans {r s t : Row} (h : Edited r s) (k : Edited s t) : Edited r t := by
  rcases k with rfl | ⟨hs, ht, hst⟩
  · exact h
  · rcases h with rfl | ⟨hr, -, hrs⟩
    · exact Or.inr ⟨hs, ht, hst⟩
    · exact Or.inr ⟨hr, ht, hrs.trans hst⟩

theorem New.edited {s t : Row} (h : New s) (k : Edited s t) : New t := by
  rcases k with rfl | ⟨-, ht, hst⟩
  · exact h
  · exact ⟨ht, h.2.sameRun hst⟩

theorem Restarted.trans {r s t : Row} (h : Restarted r s) (k : Restarted s t) :
    Restarted r t := by
  rcases k with rfl | ⟨hs, ht, hblank⟩
  · exact h
  · rcases h with rfl | ⟨hr, -, -⟩
    · exact Or.inr ⟨hs, ht, hblank⟩
    · exact Or.inr ⟨hr, ht, hblank⟩

/-! ## Each command -/

theorem mem_newRows {now host : String} : ∀ {jobs : List JobHash} {jid : Nat} {s : Row},
    s ∈ newRows now host jid jobs → jid ≤ s.jid ∧ New s
  | [], _, _, h => by cases h
  | job :: jobs, jid, s, h => by
    rcases List.mem_cons.mp h with rfl | h
    · exact ⟨Nat.le_refl jid, Or.inl rfl, rfl, rfl, rfl, rfl, rfl, rfl, rfl⟩
    · obtain ⟨hle, hnew⟩ := mem_newRows h
      exact ⟨Nat.le_of_succ_le hle, hnew⟩

theorem submit_evolves {now host : String} {jobs : List JobHash} {db db' : Jobs}
    (h : submit now host jobs db = .ok db') :
    Evolves Edited New db db' ∧ KeepsJids db db' := by
  have hmem : ∀ s, s ∈ db' ↔ s ∈ db ∨ s ∈ newRows now host (db.maxJid + 1) jobs := by
    intro s
    rw [Jobs.mem_def, (submit_ok h).1, List.mem_append]
    exact Iff.rfl
  have hk : KeepsJids db db' := fun r hr => ⟨r, (hmem r).mpr (Or.inl hr), rfl⟩
  refine ⟨⟨fun s hs => ?_, fun r hr _ => hk r hr⟩, hk⟩
  rcases (hmem s).mp hs with hs | hs
  · exact Or.inl ⟨s, hs, rfl, Or.inl rfl⟩
  · obtain ⟨hle, hnew⟩ := mem_newRows hs
    refine Or.inr ⟨fun r hr heq => ?_, hnew⟩
    have := Jobs.jid_le_maxJid hr
    omega

theorem update_evolves {sqlite : OtherSql} {kvs : List (String × Option String)}
    {targets : List Target} {db db' : Jobs} (hq : QuoteFree kvs)
    (h : update sqlite kvs targets db = .ok db') :
    Evolves Edited New db db' ∧ KeepsJids db db' := by
  obtain ⟨as, jids, hup, rfl⟩ := update_ok hq h
  refine evolves_update fun r _ => ?_
  unfold setWhere
  split
  · rename_i hsel
    obtain ⟨hrun, hjid, hstate⟩ := assign_updates hup r
    have hw : Waiting r := by
      simp only [updatable, Bool.and_eq_true, Bool.or_eq_true, eqLit_word] at hsel
      exact hsel.1
    exact Or.inr ⟨hw, hstate hw,
      ⟨hrun.started, hrun.finished, hrun.elapsed, hrun.pid, hrun.exitStatus, hrun.stdout,
        hrun.stderr⟩⟩
  · exact Or.inl rfl

theorem delete_evolves {sqlite : OtherSql} {whats : List String} {db db' : Jobs}
    (hp : ∀ what ∈ whats, PlainArg what) (h : delete sqlite false whats db = .ok db') :
    Evolves Eq New db db' := by
  obtain ⟨hsub, hgone⟩ := delete_ok hp h
  refine ⟨fun s hs => Or.inl ⟨s, hsub s hs, rfl, rfl⟩, fun r hr hrun => ?_⟩
  by_contra hno
  exact hgone r hr (fun hr' => hno ⟨r, hr', rfl⟩) hrun

/-- A row in state "running" says so. -/
theorem saysRunning_of_running {r : Row} (h : r.state = some "running") : saysRunning r = true := by
  rw [saysRunning, h]
  decide

theorem list_mem {whats : List ListArg} {db : Jobs} {r : Row} (h : r ∈ list whats db) : r ∈ db :=
  List.mem_of_mem_filter h

theorem reSubmit_evolves {now host : String} {opts : Overrides} {whats : List ListArg}
    {db db' : Jobs} (h : reSubmit now host opts whats db = .ok db') :
    Evolves Restarted New db db' ∧ KeepsJids db db' := by
  -- along the loop the table is a restart of the one the jobs were listed from
  refine foldlM_rule (I := fun db₁ => Evolves Restarted New db db₁ ∧ KeepsJids db db₁) ?_
    ⟨Evolves.refl (fun r => Or.inl rfl) db, fun r hr => ⟨r, hr, rfl⟩⟩ h
  rintro job hjob db₁ db₂ ⟨hev, hk⟩ hstep
  split at hstep
  · cases hstep
    exact ⟨hev, hk⟩
  rename_i hnot
  rw [resubmit_eq] at hstep
  split at hstep
  swap
  · cases hstep
  cases hstep
  have hmem := list_mem hjob
  have hev₂ : Evolves Restarted New db₁ (db₁.update (fun r => r.jid == (opts.apply job).jid)
      (resubmittedRow now host (opts.apply job))) ∧ KeepsJids db₁ (db₁.update
      (fun r => r.jid == (opts.apply job).jid) (resubmittedRow now host (opts.apply job))) := by
    refine evolves_update fun r hr => ?_
    unfold setWhere
    split
    · rename_i hjid
      refine Or.inr ⟨fun hrun => ?_, rfl, rfl, rfl, rfl, rfl, rfl, rfl, rfl⟩
      -- a running row has not changed since the listing, so it is `job`, which was skipped
      rcases hev.rows r hr with ⟨r₀, hr₀, hj, rfl | ⟨-, hpend, -⟩⟩ | ⟨hnew, -⟩
      · have hj : r.jid = job.jid := beq_iff_eq.mp hjid
        obtain rfl := Jobs.eq_of_jid hr₀ hmem hj
        exact hnot (saysRunning_of_running hrun)
      · rw [hpend] at hrun
        exact absurd hrun (by decide)
      · have hj : r.jid = job.jid := beq_iff_eq.mp hjid
        exact hnew job hmem hj.symm
    · exact Or.inl rfl
  exact ⟨hev.trans (fun _ _ _ a b => a.trans b) (fun s t hn hst => by
      rcases hst with rfl | ⟨-, ht, hblank⟩
      · exact hn
      · exact ⟨Or.inl ht, hblank⟩) hk hev₂.1 hev₂.2, hk.trans hev₂.2⟩

theorem touch_evolves {sqlite : OtherSql} {now host : String} {jobs : List JobHash}
    {db db' : Jobs} (hq : ∀ job ∈ jobs, QuoteFree (touchKvs job))
    (h : touch sqlite now host jobs db = .ok db') :
    Evolves Edited New db db' ∧ KeepsJids db db' := by
  unfold touch at h
  simp only at h
  split at h
  · cases h
  refine foldlM_rule (I := fun db₁ => Evolves Edited New db db₁ ∧ KeepsJids db db₁) ?_
    ⟨Evolves.refl (fun r => Or.inl rfl) db, fun r hr => ⟨r, hr, rfl⟩⟩ h
  rintro job hjob db₁ db₂ ⟨hev, hk⟩ hstep
  have hev₂ : Evolves Edited New db₁ db₂ ∧ KeepsJids db₁ db₂ := by
    unfold touchOne at hstep
    split at hstep
    · cases hstep
    split at hstep
    · exact update_evolves (hq job hjob) hstep
    · exact submit_evolves hstep
  exact ⟨hev.trans (fun _ _ _ a b => a.trans b) (fun _ _ a b => a.edited b) hk hev₂.1 hev₂.2,
    hk.trans hev₂.2⟩

/-! ## Running rows -/

/-- The running rows are the same in both tables. -/
def SameRunning (db db' : Jobs) : Prop :=
  ∀ r : Row, r.state = some "running" → (r ∈ db ↔ r ∈ db')

/-- Edges that leave running rows alone and make none. -/
theorem Evolves.sameRunning {E : Row → Row → Prop} {db db' : Jobs} (h : Evolves E New db db')
    (hE : ∀ r s, E r s → r.state = some "running" ∨ s.state = some "running" → s = r) :
    SameRunning db db' := by
  intro r hrun
  constructor
  · intro hr
    obtain ⟨s, hs, hsr⟩ := h.kept r hr hrun
    rcases h.rows s hs with ⟨r', hr', hj, he⟩ | ⟨hnew, -⟩
    · obtain rfl := Jobs.eq_of_jid hr' hr (hj.trans hsr)
      rwa [← hE _ s he (Or.inl hrun)]
    · exact absurd hsr.symm (hnew r hr)
  · intro hr
    rcases h.rows r hr with ⟨r', hr', -, he⟩ | ⟨-, hw, -⟩
    · rwa [hE r' r he (Or.inr hrun)]
    · rcases hw with hw | hw <;> rw [hw] at hrun <;> exact absurd hrun (by decide)

theorem Waiting.not_running {r : Row} (h : Waiting r) : r.state ≠ some "running" := by
  rcases h with h | h <;> rw [h] <;> decide

theorem Edited.running {r s : Row} (h : Edited r s)
    (hrun : r.state = some "running" ∨ s.state = some "running") : s = r := by
  rcases h with h | ⟨hr, hs, -⟩
  · exact h
  · rcases hrun with hrun | hrun
    · exact absurd hrun hr.not_running
    · exact absurd hrun hs.not_running

theorem Restarted.running {r s : Row} (h : Restarted r s)
    (hrun : r.state = some "running" ∨ s.state = some "running") : s = r := by
  rcases h with h | ⟨hr, hs, -⟩
  · exact h
  · rcases hrun with hrun | hrun
    · exact absurd hrun hr
    · rw [hs] at hrun
      exact absurd hrun (by decide)

/-- The words `rotate` deletes by. -/
theorem plainArg_rotate : ∀ what ∈ ["dead", "finished"], PlainArg what := by
  intro what hwhat t ht
  rcases List.mem_cons.mp hwhat with rfl | hwhat
  · exact absurd ht (by rw [show designate false "dead" = .ok (.word "dead") from rfl]; simp)
  · rw [List.mem_singleton.mp hwhat] at ht
    exact absurd ht
      (by rw [show designate false "finished" = .ok (.word "finished") from rfl]; simp)

/-- **No client touches a running row**, as long as its values stay within their quotes. -/
theorem Client.sameRunning {sqlite : OtherSql} {c : Client} {db db' : Jobs} (hc : c.Plain)
    (h : c.exec sqlite db = .ok db') : SameRunning db db' := by
  cases c with
  | submit now host jobs =>
    exact (submit_evolves h).1.sameRunning fun _ _ he => he.running
  | resubmit now host opts whats =>
    exact (reSubmit_evolves h).1.sameRunning fun _ _ he => he.running
  | update kvs targets =>
    exact (update_evolves hc h).1.sameRunning fun _ _ he => he.running
  | delete whats =>
    exact (delete_evolves hc h).sameRunning fun _ _ he _ => he.symm
  | touch now host jobs =>
    exact (touch_evolves hc h).1.sameRunning fun _ _ he => he.running
  | rotate =>
    exact (delete_evolves plainArg_rotate h).sameRunning fun _ _ he _ => he.symm

end RubyQueue.JobQueue
