/-
  The lines of a transaction, and its block.

  `Daemon` takes the blocks of `start_jobs` and `reap_jobs` line by line, `Feeder` has them as whole
  functions.  A run that has come to some line of a block has, up to there, done what the function
  does for a script, which is read off the run: the pids and clock readings of the forks, the children
  `waitpid2` returned, whether a signal had come.

  * `Starting`, `Reaping`   — "the block, entered with this table and these variables, has got to this
                              line", for the lines of `start_jobs` and of `reap_jobs`;
  * `Starting.returns`, `InTurn.returns` — at its end the block has done what the function does;
  * `Starting.fails`, `Reaping.brokenOff` — and where it is broken off, what the function does for a
                              script in which that call raises.
-/
import RubyQueue.Retries
import RubyQueue.Tracking

namespace RubyQueue.Daemon

open RubyQueue.JobQueue RubyQueue.Qdb RubyQueue.Feeder RubyQueue.Run

/-! ## What a feeder has -/

/-- The jobs and pids of the processes whose command was passed to `JobRunner#run`. -/
def ranOf (procs : List Proc) : List (Nat × Nat) :=
  (procs.filter Proc.ran).map fun p => (p.jid, p.pid)

theorem ranOf_append (ps qs : List Proc) : ranOf (ps ++ qs) = ranOf ps ++ ranOf qs := by
  simp [ranOf]

theorem ranOf_set : ∀ {procs : List Proc} {n : Nat} {p q : Proc}, procs[n]? = some p →
    q.pid = p.pid → q.jid = p.jid → q.ran = p.ran → ranOf (procs.set n q) = ranOf procs
  | [], n, p, q, hn, _, _, _ => by simp at hn
  | r :: procs, 0, p, q, hn, hpid, hjid, hran => by
    obtain rfl : r = p := by simpa using hn
    by_cases h : r.ran = true
    · simp [ranOf, hran, h, hpid, hjid]
    · simp [ranOf, hran, h]
  | r :: procs, n + 1, p, q, hn, hpid, hjid, hran => by
    have hn' : procs[n]? = some p := by simpa using hn
    have ih : ranOf (procs.set n q) = ranOf procs := ranOf_set hn' hpid hjid hran
    have hcons : ∀ ps : List Proc, ranOf (r :: ps) = ranOf [r] ++ ranOf ps :=
      fun ps => ranOf_append [r] ps
    rw [List.set_cons_succ, hcons, hcons procs, ih]

/-- The feeder of the blocks has what the feeder of the lines has: the same `@children`, and a call of
    `JobRunner#run` for each process that was run. -/
def Has (s : St) (o : Own) : Prop :=
  o.children = s.children ∧ o.launches.map (fun l => (l.jid, l.pid)) = ranOf s.procs

/-- A process that stops, goes on, ends or is reported does not change it. -/
theorem Has.set {s : St} {o : Own} (h : Has s o) {n : Nat} {p q : Proc} (hn : s.procs[n]? = some p)
    (hpid : q.pid = p.pid) (hjid : q.jid = p.jid) (hran : q.ran = p.ran) :
    Has { s with procs := s.procs.set n q } o :=
  ⟨h.1, h.2.trans (ranOf_set hn hpid hjid hran).symm⟩

/-- Process `n`, the last one, was forked for `job` and is not yet run. -/
def St.Unrun (s : St) (n : Nat) (job : Row) (e : Fork) : Prop :=
  ∃ ps p, s.procs = ps ++ [p] ∧ n = ps.length ∧ p.ran = false ∧ p.pid = e.pid ∧ p.jid = job.jid

theorem St.Unrun.set {s : St} {n i : Nat} {job : Row} {e : Fork} (h : s.Unrun n job e) {p q : Proc}
    (hi : s.procs[i]? = some p) (hpid : q.pid = p.pid) (hjid : q.jid = p.jid) (hran : q.ran = p.ran) :
    St.Unrun { s with procs := s.procs.set i q } n job e := by
  obtain ⟨ps, r, hps, hn, hr, hrpid, hrjid⟩ := h
  rw [hps] at hi
  rcases getElem?_concat hi with hi | ⟨rfl, rfl⟩
  · have hlt : i < ps.length := (List.getElem?_eq_some_iff.mp hi).1
    refine ⟨ps.set i q, r, ?_, by rw [hn, List.length_set], hr, hrpid, hrjid⟩
    show s.procs.set i q = _
    rw [hps, List.set_append_left _ _ hlt]
  · refine ⟨ps, q, ?_, hn, hran.trans hr, hpid.trans hrpid, hjid.trans hrjid⟩
    show s.procs.set ps.length q = _
    rw [hps, List.set_append_right _ _ (Nat.le_refl _)]
    simp

/-- `JobRunner#run` adds the process to those that were run. -/
theorem St.Unrun.run {s : St} {n : Nat} {job : Row} {e : Fork} (h : s.Unrun n job e) :
    ranOf (s.procs.modify n fun p => { p with ran := true }) = ranOf s.procs ++ [(job.jid, e.pid)] := by
  obtain ⟨ps, p, hps, rfl, hp, hpid, hjid⟩ := h
  have hmod : (ps ++ [p]).modify ps.length (fun p => { p with ran := true })
      = ps ++ [{ p with ran := true }] := by
    rw [List.modify_eq_take_cons_drop (by simp)]
    simp
  rw [hps, hmod, ranOf_append, ranOf_append]
  simp [ranOf, hp, hpid, hjid]

/-! ## The lines of `start_jobs` -/

section Starting

variable {cfg : Config} {db jobs : Jobs} {o o' : Own} {s : St} {job : Row} {e : Fork}

/-- `start_jobs`, called with `db` and `o`, goes on as if called with `jobs` and `o'`. -/
def StartsAs (cfg : Config) (db : Jobs) (o : Own) (jobs : Jobs) (o' : Own) : Prop :=
  ∃ script, ∀ more, startJobs cfg.host cfg.maxFeed (script ++ more) db o =
    startJobs cfg.host cfg.maxFeed more jobs o'

theorem StartsAs.refl (cfg : Config) (db : Jobs) (o : Own) : StartsAs cfg db o db o :=
  ⟨[], fun _ => rfl⟩

/-- `getjob` has returned `job`, and `start_job` is called with it. -/
structure Chosen (cfg : Config) (jobs : Jobs) (o : Own) (job : Row) (e : Fork) : Prop where
  busy : Feeder.busy cfg.maxFeed o = false
  job : getjob cfg.host jobs = some job
  fault : e.fault = none

/-- After the call of `JobRunner#run`. -/
def afterRun (o : Own) (job : Row) (e : Fork) : Own :=
  { o with launches := o.launches ++ [⟨job.jid, e.pid, decide (e.pid ∈ o.children)⟩] }

theorem startJob_runner (jobs : Jobs) (o : Own) (e : Fork) :
    startJob cfg.host job { e with fault := some .runner } jobs o = ((jobs, o), some .standard) := by
  simp [startJob]

theorem startJob_run (jobs : Jobs) (o : Own) (e : Fork) :
    startJob cfg.host job { e with fault := some .run } jobs o =
      ((jobs, afterRun o job e), some .standard) := by
  simp [startJob, afterRun, prepared]

theorem startJob_jobisrunning (jobs : Jobs) (o : Own) (hcommand : job.command ≠ none) :
    startJob cfg.host job { e with fault := some .jobisrunning } jobs o =
      ((jobs, o.launch cfg.host e job), some .standard) := by
  simp [startJob, Own.launch, launched, prepared, hcommand]

/-- A `start_job` that raises ends the block. -/
theorem StartsAs.raise (h : StartsAs cfg db o jobs o') (hc : Chosen cfg jobs o' job e)
    {fault : ForkFault} {o₁ : Own}
    (hf : startJob cfg.host job { e with fault := some fault } jobs o' = ((jobs, o₁), some .standard)) :
    ∃ script, startJobs cfg.host cfg.maxFeed script db o = ((jobs, o₁), some .standard) := by
  obtain ⟨script, hs⟩ := h
  refine ⟨script ++ [{ e with fault := some fault }], ?_⟩
  rw [hs, startJobs, hc.busy, hc.job]
  simp [hf]

/-- One that does not is a turn of its loop. -/
theorem StartsAs.launch (h : StartsAs cfg db o jobs o') (hc : Chosen cfg jobs o' job e)
    (hcommand : job.command ≠ none) :
    StartsAs cfg db o (jobisrunning (launched cfg.host e job) jobs) (o'.launch cfg.host e job) := by
  obtain ⟨script, hs⟩ := h
  have hjob : startJob cfg.host job e jobs o' =
      ((jobisrunning (launched cfg.host e job) jobs, o'.launch cfg.host e job), none) := by
    simp [startJob, hc.fault, hcommand, launched, Own.launch, prepared]
  refine ⟨script ++ [e], fun more => ?_⟩
  rw [List.append_assoc, List.singleton_append, hs, startJobs, hc.busy, hc.job]
  simp [hjob]

/-- **The lines of `start_jobs`**: called with `db` and `o`, it has got to this one. -/
def Starting (cfg : Config) (db : Jobs) (o : Own) (s : St) : Prop :=
  match s.pc with
  | .starting _ => ∃ o', StartsAs cfg db o s.tbl o' ∧ Has s o'
  | .forked _ job e n =>
    ∃ o', StartsAs cfg db o s.tbl o' ∧ Chosen cfg s.tbl o' job e ∧ Has s o' ∧ s.Unrun n job e
  | .ran _ job e _ =>
    ∃ o', StartsAs cfg db o s.tbl o' ∧ Chosen cfg s.tbl o' job e ∧ job.command ≠ none ∧
      Has s (afterRun o' job e)
  | .entered _ job e _ =>
    ∃ o', StartsAs cfg db o s.tbl o' ∧ Chosen cfg s.tbl o' job e ∧ job.command ≠ none ∧
      Has s (o'.launch cfg.host e job)
  | _ => False

theorem busy_eq (h : Has s o) : Feeder.busy cfg.maxFeed o = s.busy cfg := by
  unfold Feeder.busy St.busy
  rw [h.1]

/-- Its end: the feeder is busy, or no job waits. -/
theorem Starting.returns {k : Caller} (h : Starting cfg db o s) (hpc : s.pc = .starting k)
    (hend : (s.busy cfg || (getjob cfg.host s.tbl).isNone) = true) :
    ∃ script o', startJobs cfg.host cfg.maxFeed script db o = ((s.tbl, o'), none) ∧ Has s o' := by
  simp only [Starting, hpc] at h
  obtain ⟨o', ⟨script, hs⟩, hhas⟩ := h
  refine ⟨script, o', ?_, hhas⟩
  rw [← List.append_nil script, hs, startJobs, busy_eq hhas]
  rcases Bool.or_eq_true_iff.mp hend with hb | hj
  · simp [hb]
  · simp [Option.isNone_iff_eq_none.mp hj]

/-- Broken off at any line, it leaves what the block leaves that raises there; or it returns. -/
theorem Starting.fails (h : Starting cfg db o s) :
    ∃ script o' jobs' err, startJobs cfg.host cfg.maxFeed script db o = ((jobs', o'), err) ∧
      (err = none ∨ err = some .standard) ∧ Has s o' := by
  unfold Starting at h
  split at h
  · -- the script is used up
    obtain ⟨o', ⟨script, hs⟩, hhas⟩ := h
    have hend : ∃ err, startJobs cfg.host cfg.maxFeed [] s.tbl o' = ((s.tbl, o'), err) ∧
        (err = none ∨ err = some .standard) := by
      rw [startJobs]
      split
      · exact ⟨_, rfl, .inl rfl⟩
      · split
        · exact ⟨_, rfl, .inl rfl⟩
        · exact ⟨_, rfl, .inr rfl⟩
    obtain ⟨err, herr, hor⟩ := hend
    exact ⟨script, o', s.tbl, err, by rw [← List.append_nil script, hs, herr], hor, hhas⟩
  · obtain ⟨o', hs, hc, hhas, -⟩ := h
    obtain ⟨script, hr⟩ := hs.raise hc (startJob_runner _ _ _)
    exact ⟨script, o', _, _, hr, .inr rfl, hhas⟩
  · obtain ⟨o', hs, hc, -, hhas⟩ := h
    obtain ⟨script, hr⟩ := hs.raise hc (startJob_run _ _ _)
    exact ⟨script, _, _, _, hr, .inr rfl, hhas⟩
  · obtain ⟨o', hs, hc, hcommand, hhas⟩ := h
    obtain ⟨script, hr⟩ := hs.raise hc (startJob_jobisrunning _ _ hcommand)
    exact ⟨script, _, _, _, hr, .inr rfl, hhas⟩
  · exact h.elim

theorem Starting.set (h : Starting cfg db o s) {n : Nat} {p q : Proc} (hn : s.procs[n]? = some p)
    (hpid : q.pid = p.pid) (hjid : q.jid = p.jid) (hran : q.ran = p.ran) :
    Starting cfg db o { s with procs := s.procs.set n q } := by
  unfold Starting at h ⊢
  cases hpc : s.pc <;> simp only [hpc] at h ⊢
  case starting =>
    obtain ⟨o', hs, hhas⟩ := h
    exact ⟨o', hs, hhas.set hn hpid hjid hran⟩
  case forked =>
    obtain ⟨o', hs, hc, hhas, hun⟩ := h
    exact ⟨o', hs, hc, hhas.set hn hpid hjid hran, hun.set hn hpid hjid hran⟩
  case ran =>
    obtain ⟨o', hs, hc, hcommand, hhas⟩ := h
    exact ⟨o', hs, hc, hcommand, hhas.set hn hpid hjid hran⟩
  case entered =>
    obtain ⟨o', hs, hc, hcommand, hhas⟩ := h
    exact ⟨o', hs, hc, hcommand, hhas.set hn hpid hjid hran⟩

/-- Who called `start_jobs`. -/
def Pc.caller : Pc → Option Caller
  | .starting k => some k
  | .forked k _ _ _ => some k
  | .ran k _ _ _ => some k
  | .entered k _ _ _ => some k
  | _ => none

/-- A process is forked only when the feeder is not busy. -/
theorem step_fork_busy {pid : Nat} {now : String} {t : St} (ht : step cfg s (.fork pid now) = some t) :
    s.busy cfg = false := by
  obtain ⟨k, job, hpc, hjob, -⟩ := step_fork ht
  simp only [step, hpc, hjob] at ht
  split at ht
  · cases ht
  · rename_i hfree
    rw [Bool.or_eq_true, not_or] at hfree
    simpa using hfree.1

/-- The process is forked. -/
theorem Starting.fork (h : Starting cfg db o s) {pid : Nat} {now : String} {t : St}
    (ht : step cfg s (.fork pid now) = some t) :
    Starting cfg db o t ∧ t.pc.caller = s.pc.caller ∧ t.db = s.db ∧ t.work = s.work := by
  have hbusy := step_fork_busy ht
  obtain ⟨k, job, hpc, hjob, -, rfl⟩ := step_fork ht
  refine ⟨?_, by rw [hpc]; rfl, rfl, rfl⟩
  simp only [Starting, hpc] at h ⊢
  obtain ⟨o', hs, hhas⟩ := h
  refine ⟨o', hs, ⟨(busy_eq hhas).trans hbusy, hjob, rfl⟩, ⟨hhas.1, ?_⟩, s.procs, _, rfl, rfl, rfl, rfl, rfl⟩
  show _ = ranOf (s.procs ++ _)
  rw [ranOf_append, hhas.2]
  simp [ranOf]

/-- The line after it, or the end of `start_jobs`. -/
theorem Starting.tick (h : Starting cfg db o s) (hwork : s.work.isSome) {t : St}
    (ht : tick cfg s = some t) :
    (Starting cfg db o t ∧ t.pc.caller = s.pc.caller ∧ t.db = s.db ∧ t.work.isSome) ∨
      ∃ k, s.pc = .starting k ∧ (s.busy cfg || (getjob cfg.host s.tbl).isNone) = true ∧
        t = s.started k := by
  unfold Starting at h
  unfold Daemon.tick at ht
  split at h
  · rename_i k hpc
    simp only [hpc] at ht
    split at ht
    · rename_i hend
      exact .inr ⟨k, hpc, hend, (Option.some.inj ht).symm⟩
    · cases ht
  · rename_i k job e n hpc
    simp only [hpc] at ht
    split at ht
    · cases ht
    rename_i hcommand
    obtain rfl := Option.some.inj ht
    obtain ⟨o', hs, hc, hhas, hun⟩ := h
    refine .inl ⟨⟨o', hs, hc, hcommand, hhas.1, ?_⟩, by rw [hpc]; rfl, rfl, hwork⟩
    show ((o'.launches ++ [_]).map _) = _
    rw [List.map_append, hhas.2, hun.run]
    rfl
  · rename_i k job e n hpc
    simp only [hpc, Option.some.injEq] at ht
    subst ht
    obtain ⟨o', hs, hc, hcommand, hhas⟩ := h
    refine .inl ⟨⟨o', hs, hc, hcommand, ?_, hhas.2⟩, by rw [hpc]; rfl, rfl, hwork⟩
    show o'.children.insert e.pid _ = s.children.insert e.pid _
    rw [show o'.children = s.children from hhas.1]
  · rename_i k job e n hpc
    simp only [hpc, Option.some.injEq] at ht
    subst ht
    obtain ⟨o', hs, hc, hcommand, hhas⟩ := h
    exact .inl ⟨⟨_, hs.launch hc hcommand, hhas⟩, by rw [hpc]; rfl, rfl, rfl⟩
  · exact h.elim

end Starting

/-! ## The lines of `reap_jobs` -/

section Reaping

variable {cfg : Config} {only : Bool} {db jobs : Jobs} {p : Own × Vars} {o : Own} {v : Vars} {s : St}
  {t : Taken} {loopno : Nat}

/-- The loop of `reap_jobs`, entered with `db` and `p`, goes on as if `loopno` turns were over and it
    had got to `jobs` and `p'`. -/
def ReapsAs (cfg : Config) (only : Bool) (db : Jobs) (p : Own × Vars) (loopno : Nat) (jobs : Jobs)
    (p' : Own × Vars) : Prop :=
  ∃ turns, ∀ more, reapLoop cfg.host cfg.maxFeed only (turns ++ more) 0 db p =
    reapLoop cfg.host cfg.maxFeed only more loopno jobs p'

/-- The child in the hands of the block. -/
def On (v : Vars) (t : Taken) : Prop := v.cid = some t.done.waited.cid ∧ v.job = some t.done

/-- The table and the feeder once the child is recorded and deleted, and jobs were started, unless
    they are not to be. -/
def served (cfg : Config) (only signaled : Bool) (forks : List Fork) (t : Taken) (jobs : Jobs) (o : Own) :
    (Jobs × Own) × Option Err :=
  if only || signaled then ((jobisdone t.done.job jobs, deleteChild (some t.done.waited.cid) o), none)
  else startJobs cfg.host cfg.maxFeed forks (jobisdone t.done.job jobs)
    (deleteChild (some t.done.waited.cid) o)

/-- One turn of the loop. -/
theorem reapLoop_turn (hon : On v t) (signaled : Bool) (forks : List Fork) (wait : Wait)
    (more : List Turn) :
    reapLoop cfg.host cfg.maxFeed only ({ signaled := signaled, forks := forks, wait := wait } :: more)
        loopno jobs (o, v) =
      match served cfg only signaled forks t jobs o with
      | ((jobs, o), some e) => ((jobs, (o, { v with reaped := v.reaped ++ [t.done] })), some e)
      | ((jobs, o), none) =>
        if o.children.entries.length = 0 ∨ loopno > 42 then
          ((jobs, (o, { v with reaped := v.reaped ++ [t.done] })), none)
        else
          match wait with
          | .raises => ((jobs, (o, { v with reaped := v.reaped ++ [t.done] })), some .standard)
          | .nobody => ((jobs, (o, { v with reaped := v.reaped ++ [t.done], cid := none })), none)
          | .child w =>
            match takeChild w o { v with reaped := v.reaped ++ [t.done] } with
            | (p, none) => reapLoop cfg.host cfg.maxFeed only more (loopno + 1) jobs p
            | (p, some e) => ((jobs, p), some e) := by
  obtain ⟨hcid, hjob⟩ := hon
  rw [reapLoop, hjob, hcid]
  rfl

/-- The turn of the loop that has `t` in its hands, up to a line at which `K` holds of the table and
    the feeder the turn began with. -/
def InTurn (cfg : Config) (only : Bool) (db : Jobs) (p : Own × Vars) (t : Taken) (loopno : Nat)
    (K : Jobs → Own → Prop) : Prop :=
  ∃ jobs o v, ReapsAs cfg only db p loopno jobs (o, v) ∧ On v t ∧ K jobs o

theorem InTurn.imp {K K' : Jobs → Own → Prop} (h : InTurn cfg only db p t loopno K)
    (hK : ∀ jobs o, K jobs o → K' jobs o) : InTurn cfg only db p t loopno K' := by
  obtain ⟨jobs, o, v, hr, hon, hk⟩ := h
  exact ⟨jobs, o, v, hr, hon, hK jobs o hk⟩

/-- The turn is done but for its `waitpid2`. -/
def Served (cfg : Config) (only : Bool) (t : Taken) (s : St) (jobs : Jobs) (o : Own) : Prop :=
  ∃ signaled forks o', served cfg only signaled forks t jobs o = ((s.tbl, o'), none) ∧ Has s o'

/-- With `start_jobs` skipped, since a signal has come. -/
theorem served_skipped (htbl : s.tbl = jobisdone t.done.job jobs)
    (hhas : Has s (deleteChild (some t.done.waited.cid) o)) : Served cfg only t s jobs o := by
  refine ⟨true, [], _, ?_, hhas⟩
  rw [served, Bool.or_true, if_pos rfl, htbl]

theorem Served.ends (h : Served cfg only t s jobs o) : ∃ signaled forks jobs' o' err,
    served cfg only signaled forks t jobs o = ((jobs', o'), err) ∧
      (err = none ∨ err = some .standard) ∧ Has s o' := by
  obtain ⟨signaled, forks, o', hs, hhas⟩ := h
  exact ⟨signaled, forks, s.tbl, o', none, hs, .inl rfl, hhas⟩

/-- **The lines of `reap_jobs`**: its block, entered with `db` and `p`, has got to this one. -/
def Reaping (cfg : Config) (only : Bool) (db : Jobs) (p : Own × Vars) (s : St) : Prop :=
  match s.pc with
  | .recording b t loopno =>
    b = only ∧ InTurn cfg only db p t loopno fun jobs o => s.tbl = jobs ∧ Has s o
  | .recorded b t loopno =>
    b = only ∧ InTurn cfg only db p t loopno fun jobs o =>
      s.tbl = jobisdone t.done.job jobs ∧ Has s o
  | .deleted b t loopno =>
    b = only ∧ InTurn cfg only db p t loopno fun jobs o =>
      s.tbl = jobisdone t.done.job jobs ∧ Has s (deleteChild (some t.done.waited.cid) o)
  | .looping b t loopno => b = only ∧ InTurn cfg only db p t loopno (Served cfg only t s)
  | .tookMore b _ _ loopno =>
    b = only ∧ ∃ t, InTurn cfg only db p t loopno (Served cfg only t s) ∧
      (s.nothingRunning || decide (42 < loopno)) = false
  | pc =>
    match pc.caller with
    | some (.loop t loopno) =>
      only = false ∧ InTurn cfg only db p t loopno fun jobs o =>
        Starting cfg (jobisdone t.done.job jobs) (deleteChild (some t.done.waited.cid) o) s
    | _ => False

/-- A block that has served the child returns when `waitpid2` finds nobody, or is not called. -/
theorem InTurn.returns (h : InTurn cfg only db p t loopno (Served cfg only t s)) :
    ∃ turns o' v', reapLoop cfg.host cfg.maxFeed only turns 0 db p = ((s.tbl, (o', v')), none) ∧
      Has s o' := by
  obtain ⟨jobs, o, v, ⟨turns, hr⟩, hon, signaled, forks, o', hserved, hhas⟩ := h
  have hturn := hr [{ signaled := signaled, forks := forks, wait := .nobody }]
  rw [reapLoop_turn hon, hserved] at hturn
  by_cases hend : o'.children.entries.length = 0 ∨ loopno > 42
  · simp only [hend, if_true] at hturn
    exact ⟨_, _, _, hturn, hhas⟩
  · simp only [hend, if_false] at hturn
    exact ⟨_, _, _, hturn, hhas⟩

/-- Broken off at this line, the block leaves what the function leaves for a script in which a call
    raises, or the commit after it; and when it is run again, it is with the child it had in its
    hands. -/
def BrokenOff (cfg : Config) (only : Bool) (db : Jobs) (p : Own × Vars) (s : St) : Prop :=
  ∃ turns jobs' o' v' err, reapLoop cfg.host cfg.maxFeed only turns 0 db p = ((jobs', (o', v')), err) ∧
    (err = none ∨ err = some .standard) ∧ Has s o' ∧
    ∀ pc, s.pc.block = some pc → ∃ t, pc = .recording only t 0 ∧ On v' t

/-- Before the child is deleted. -/
theorem InTurn.brokenOff_early (h : InTurn cfg only db p t loopno fun _ o => Has s o)
    (hb : ∀ pc, s.pc.block = some pc → pc = .recording only t 0) : BrokenOff cfg only db p s := by
  obtain ⟨jobs, o, v, ⟨turns, hr⟩, hon, hhas⟩ := h
  refine ⟨turns ++ [{ doneFault := true }], jobs, o, v, _, ?_, .inr rfl, hhas,
    fun pc hpc => ⟨t, hb pc hpc, hon⟩⟩
  rw [hr, reapLoop, hon.2]
  rfl

/-- After that: in `start_jobs`, or at the `waitpid2`. -/
theorem InTurn.brokenOff_late (h : InTurn cfg only db p t loopno fun jobs o =>
      ∃ signaled forks jobs' o' err, served cfg only signaled forks t jobs o = ((jobs', o'), err) ∧
        (err = none ∨ err = some .standard) ∧ Has s o')
    (hb : ∀ pc, s.pc.block = some pc → pc = .recording only t 0) : BrokenOff cfg only db p s := by
  obtain ⟨jobs, o, v, ⟨turns, hr⟩, hon, signaled, forks, jobs', o', err, hserved, herr, hhas⟩ := h
  have hturn := hr [{ signaled := signaled, forks := forks, wait := .raises }]
  rw [reapLoop_turn hon, hserved] at hturn
  rcases herr with rfl | rfl
  · by_cases hend : o'.children.entries.length = 0 ∨ loopno > 42
    · simp only [hend, if_true] at hturn
      exact ⟨_, _, _, _, _, hturn, .inl rfl, hhas, fun pc hpc => ⟨t, hb pc hpc, hon⟩⟩
    · simp only [hend, if_false] at hturn
      exact ⟨_, _, _, _, _, hturn, .inr rfl, hhas, fun pc hpc => ⟨t, hb pc hpc, hon⟩⟩
  · exact ⟨_, _, _, _, _, hturn, .inr rfl, hhas, fun pc hpc => ⟨t, hb pc hpc, hon⟩⟩

/-- In `start_jobs`. -/
theorem reaping_starting {k : Caller} (hk : s.pc.caller = some k) :
    Reaping cfg only db p s ↔ ∃ t loopno, k = .loop t loopno ∧ only = false ∧
      InTurn cfg only db p t loopno fun jobs o =>
        Starting cfg (jobisdone t.done.job jobs) (deleteChild (some t.done.waited.cid) o) s := by
  cases hpc : s.pc <;> rw [hpc] at hk
  case starting | forked | ran | entered =>
    obtain rfl := Option.some.inj hk
    simp only [Reaping, hpc, Pc.caller]
    split
    · rename_i t loopno heq
      obtain rfl := Option.some.inj heq
      simp
    · rename_i hne
      refine ⟨False.elim, ?_⟩
      rintro ⟨t, loopno, rfl, -⟩
      exact hne t loopno rfl
  all_goals cases hk

/-- **Any line** is one at which the block can be broken off. -/
theorem Reaping.brokenOff (h : Reaping cfg only db p s) : BrokenOff cfg only db p s := by
  cases hk : s.pc.caller with
  | some k =>
    obtain ⟨t, loopno, rfl, rfl, hturn⟩ := (reaping_starting hk).mp h
    refine (hturn.imp fun jobs o hs => ?_).brokenOff_late fun pc hb => ?_
    · obtain ⟨script, o', jobs', err, hr, herr, hhas⟩ := hs.fails
      exact ⟨false, script, jobs', o', err, hr, herr, hhas⟩
    · cases hpc : s.pc <;> rw [hpc] at hk hb <;> cases hk <;> exact (Option.some.inj hb).symm
  | none =>
    have hblock : ∀ {pc pc₁ pc₂ : Pc}, s.pc = pc₁ → s.pc.block = some pc → pc₁.block = some pc₂ →
        pc = pc₂ := fun hpc hb hb₁ => Option.some.inj (hb.symm.trans (hpc ▸ hb₁))
    unfold Reaping at h
    split at h
    · rename_i b t loopno hpc
      obtain ⟨rfl, hturn⟩ := h
      exact (hturn.imp fun _ _ hs => hs.2).brokenOff_early fun pc hb => hblock hpc hb rfl
    · rename_i b t loopno hpc
      obtain ⟨rfl, hturn⟩ := h
      exact (hturn.imp fun _ _ hs => hs.2).brokenOff_early fun pc hb => hblock hpc hb rfl
    · rename_i b t loopno hpc
      obtain ⟨rfl, hturn⟩ := h
      -- as if a signal had come, and `waitpid2` had raised
      exact (hturn.imp fun _ _ hs => (served_skipped hs.1 hs.2).ends).brokenOff_late
        fun pc hb => hblock hpc hb rfl
    · rename_i b t loopno hpc
      obtain ⟨rfl, hturn⟩ := h
      exact (hturn.imp fun _ _ hs => hs.ends).brokenOff_late fun pc hb => hblock hpc hb rfl
    · rename_i b n w loopno hpc
      obtain ⟨rfl, t, hturn, -⟩ := h
      refine (hturn.imp fun _ _ hs => hs.ends).brokenOff_late fun pc hb => ?_
      rw [hpc] at hb
      cases hb
    · rw [hk] at h
      exact h.elim

theorem Served.set (h : Served cfg only t s jobs o) {n : Nat} {r q : Proc} (hn : s.procs[n]? = some r)
    (hpid : q.pid = r.pid) (hjid : q.jid = r.jid) (hran : q.ran = r.ran) :
    Served cfg only t { s with procs := s.procs.set n q } jobs o := by
  obtain ⟨signaled, forks, o', hs, hhas⟩ := h
  exact ⟨signaled, forks, o', hs, hhas.set hn hpid hjid hran⟩

theorem Reaping.set (h : Reaping cfg only db p s) {n : Nat} {r q : Proc} (hn : s.procs[n]? = some r)
    (hpid : q.pid = r.pid) (hjid : q.jid = r.jid) (hran : q.ran = r.ran) :
    Reaping cfg only db p { s with procs := s.procs.set n q } := by
  cases hk : s.pc.caller with
  | some k =>
    obtain ⟨t, loopno, rfl, rfl, hturn⟩ := (reaping_starting hk).mp h
    exact (reaping_starting (s := { s with procs := s.procs.set n q }) hk).mpr
      ⟨t, loopno, rfl, rfl, hturn.imp fun _ _ hs => hs.set hn hpid hjid hran⟩
  | none =>
    unfold Reaping at h ⊢
    cases hpc : s.pc <;> simp only [hpc] at h hk ⊢
    case recording | recorded | deleted =>
      exact ⟨h.1, h.2.imp fun _ _ hs => ⟨hs.1, hs.2.set hn hpid hjid hran⟩⟩
    case looping => exact ⟨h.1, h.2.imp fun _ _ hs => hs.set hn hpid hjid hran⟩
    case tookMore =>
      obtain ⟨hb, t, hturn, hmore⟩ := h
      exact ⟨hb, t, hturn.imp fun _ _ hs => hs.set hn hpid hjid hran, hmore⟩
    all_goals first | exact h | cases hk

theorem Reaping.fork (h : Reaping cfg only db p s) {pid : Nat} {now : String} {u : St}
    (ht : step cfg s (.fork pid now) = some u) :
    Reaping cfg only db p u ∧ u.db = s.db ∧ u.work = s.work := by
  obtain ⟨k, job, hpc, -⟩ := step_fork ht
  have hk : s.pc.caller = some k := by rw [hpc]; rfl
  obtain ⟨t, loopno, rfl, rfl, jobs, o, v, hr, hon, hs⟩ := (reaping_starting hk).mp h
  obtain ⟨hs', hcaller, hdb, hwork⟩ := hs.fork ht
  exact ⟨(reaping_starting (hcaller.trans hk)).mpr ⟨t, loopno, rfl, rfl, jobs, o, v, hr, hon, hs'⟩,
    hdb, hwork⟩

/-- `waitpid2` returns another child. -/
theorem Reaping.report (h : Reaping cfg only db p s) {n : Nat} {f e : String} {u : St}
    (ht : step cfg s (.report n f e) = some u) :
    Reaping cfg only db p u ∧ u.db = s.db ∧ u.work = s.work := by
  obtain ⟨r, r', status, hn, hr, ⟨b, hpc, rfl⟩ | ⟨b, t, loopno, hpc, rfl⟩⟩ := step_report ht
  · simp only [Reaping, hpc, Pc.caller] at h
  · have hmore : (s.nothingRunning || decide (42 < loopno)) = false := by
      simp only [step, St.report, hn, hr, hpc] at ht
      split at ht
      · cases ht
      · rename_i hmore
        simpa using hmore
    obtain ⟨-, hpid, hjid, hran⟩ := Proc.report_some hr
    simp only [Reaping, hpc] at h
    obtain ⟨rfl, hturn⟩ := h
    exact ⟨⟨rfl, t, hturn.imp fun _ _ hs => hs.set hn hpid hjid hran, hmore⟩, rfl, rfl⟩

/-- It is the next child of the block. -/
theorem InTurn.next (h : InTurn cfg only db p t loopno (Served cfg only t s))
    (hmore : (s.nothingRunning || decide (42 < loopno)) = false) {n : Nat} {w : Waited} {job : Row}
    (hl : s.children.lookup w.cid = some job) {u : St} (htbl : u.tbl = s.tbl)
    (hchildren : u.children = s.children.insert w.cid (finishJob w job)) (hprocs : u.procs = s.procs) :
    InTurn cfg only db p ⟨n, w, job⟩ (loopno + 1) fun jobs o => u.tbl = jobs ∧ Has u o := by
  obtain ⟨jobs, o, v, ⟨turns, hr⟩, hon, signaled, forks, o', hserved, hhas⟩ := h
  have hgo : ¬ (s.children.entries.length = 0 ∨ loopno > 42) := by
    simpa [St.nothingRunning] using hmore
  refine ⟨s.tbl, { o' with children := o'.children.insert w.cid (finishJob w job) },
    { cid := some w.cid, job := some ⟨w, job⟩, reaped := v.reaped ++ [t.done], taken := v.taken + 1 },
    ⟨turns ++ [{ signaled := signaled, forks := forks, wait := .child w }], fun more => ?_⟩,
    ⟨rfl, rfl⟩, htbl, ?_, ?_⟩
  · rw [List.append_assoc, List.singleton_append, hr, reapLoop_turn hon, hserved]
    simp only [takeChild, hhas.1, hl, hgo, if_false]
  · show o'.children.insert _ _ = u.children
    rw [hchildren, hhas.1]
  · rw [hprocs]
    exact hhas.2

/-- The next line of `reap_jobs`, its end, or a child whose job is not there. -/
theorem Reaping.tick (h : Reaping cfg only db p s) (hwork : s.work.isSome) {u : St}
    (ht : tick cfg s = some u) :
    (Reaping cfg only db p u ∧ u.db = s.db ∧ u.work.isSome) ∨
      (∃ t loopno, s.pc = .looping only t loopno ∧ InTurn cfg only db p t loopno (Served cfg only t s) ∧
        u = s.commit (if only then .handling else .top)) ∨
      u = { s.rollback .dead with missing := true } := by
  cases hk : s.pc.caller with
  | some k =>
    obtain ⟨t, loopno, rfl, rfl, jobs, o, v, hr, hon, hs⟩ := (reaping_starting hk).mp h
    rcases hs.tick hwork ht with ⟨hs', hcaller, hdb, hwork'⟩ | ⟨k, hpc, hend, rfl⟩
    · exact .inl ⟨(reaping_starting (hcaller.trans hk)).mpr ⟨t, loopno, rfl, rfl, jobs, o, v, hr, hon, hs'⟩,
        hdb, hwork'⟩
    · -- the end of `start_jobs`
      obtain rfl : k = .loop t loopno := Option.some.inj ((congrArg Pc.caller hpc).symm.trans hk)
      obtain ⟨script, o', hstart, hhas⟩ := hs.returns hpc hend
      exact .inl ⟨⟨rfl, jobs, o, v, hr, hon, false, script, o', hstart, hhas⟩, rfl, hwork⟩
  | none =>
    unfold Reaping at h
    unfold Daemon.tick at ht
    split at h
    · rename_i b t loopno hpc
      obtain ⟨rfl, hturn⟩ := h
      simp only [hpc, Option.some.injEq] at ht
      subst ht
      exact .inl ⟨⟨rfl, hturn.imp fun jobs o hs => ⟨by rw [← hs.1]; rfl, hs.2⟩⟩, rfl, rfl⟩
    · rename_i b t loopno hpc
      obtain ⟨rfl, hturn⟩ := h
      simp only [hpc, Option.some.injEq] at ht
      subst ht
      refine .inl ⟨⟨rfl, hturn.imp fun jobs o hs => ⟨hs.1, ?_, hs.2.2⟩⟩, rfl, hwork⟩
      show o.children.erase _ = s.children.erase _
      rw [hs.2.1]
    · rename_i b t loopno hpc
      obtain ⟨rfl, hturn⟩ := h
      simp only [hpc, Option.some.injEq] at ht
      subst ht
      by_cases hskip : (b || !s.signals.isEmpty) = true
      · rw [if_pos hskip]
        exact .inl ⟨⟨rfl, hturn.imp fun _ _ hs => served_skipped hs.1 hs.2⟩, rfl, hwork⟩
      · rw [if_neg hskip]
        have hb : b = false := by
          cases b with
          | true => exact absurd rfl hskip
          | false => rfl
        refine .inl ⟨(reaping_starting rfl).mpr ⟨t, loopno, rfl, hb, hturn.imp fun jobs o hs => ?_⟩,
          rfl, hwork⟩
        exact ⟨_, hs.1 ▸ StartsAs.refl cfg _ _, hs.2⟩
    · rename_i b t loopno hpc
      obtain ⟨rfl, hturn⟩ := h
      simp only [hpc] at ht
      split at ht
      · exact .inr (.inl ⟨t, loopno, hpc, hturn, (Option.some.inj ht).symm⟩)
      · cases ht
    · rename_i b n w loopno hpc
      obtain ⟨rfl, t, hturn, hmore⟩ := h
      simp only [hpc, Option.some.injEq] at ht
      subst ht
      unfold St.finish
      split
      · exact .inr (.inr rfl)
      · rename_i job hl
        exact .inl ⟨⟨rfl, hturn.next hmore hl rfl rfl rfl⟩, rfl, hwork⟩
    · rw [hk] at h
      exact h.elim

end Reaping

end RubyQueue.Daemon
