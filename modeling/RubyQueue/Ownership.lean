/-
  Who owns a running row.

  When no feeder crashes and every transaction commits at its first attempt, the table and the
  `@children` of all feeders say the same: a row runs if and only if exactly one entry of exactly
  one feeder stands for it, under the row's pid and on the row's host (`Ownership`).

  `Owns` (every entry has its row) is kept by everything.  The converse is kept host by host
  (`Covers`): it needs that the pid of a new child is not that of an unreaped one, or the new entry
  would replace an old one.  Clients keep both, as long as a `touch` does not make its own running
  row: `Toucher#touch` hands its options to `update`, which splices them in unquoted.
-/
import RubyQueue.Completions

namespace RubyQueue.System

open RubyQueue.JobQueue RubyQueue.Qdb RubyQueue.Feeder RubyQueue.Run

variable {ι : Type} [DecidableEq ι]

/-! ## The relation -/

/-- `cid` is a child of feeder `i`, for the job `jid`. -/
def ChildOf (s : State ι) (i : ι) (cid jid : Nat) : Prop :=
  ∃ job, (s.feeder i).own.children.lookup cid = some job ∧ job.jid = jid

/-- Rows and children agree, and no feeder has too many of them. -/
structure Ownership (cfg : Config ι) (s : State ι) : Prop where
  running_iff : ∀ r ∈ s.jobs, r.state = some "running" ↔
    ∃ i cid, ChildOf s i cid r.jid ∧ (∀ j c, ChildOf s j c r.jid → j = i ∧ c = cid) ∧
      r.runner = some (cfg.host i).name ∧ r.pid = some (toString cid)
  bounded : ∀ i, ((s.feeder i).own.children.entries.length : Int) ≤ max 0 (cfg.maxFeed i)

/-- Every running row of the host has an entry. -/
def Covers (db : Jobs) (h : Hostname) (children : Children) : Prop :=
  ∀ r ∈ db, r.state = some "running" → r.runner = some h.name →
    ∃ cid job, children.lookup cid = some job ∧ job.jid = r.jid

/-- What one feeder keeps. -/
structure Accounts (db : Jobs) (h : Hostname) (maxFeed : Int) (children : Children) : Prop where
  owns : Owns db h children
  covers : Covers db h children
  bounded : (children.entries.length : Int) ≤ max 0 maxFeed

/-! ## Sizes -/

theorem length_entries (children : Children) :
    children.entries.length = children.keys.length := by
  simp [AList.keys, List.keys]

theorem length_insert_le (children : Children) (cid : Nat) (job : Row) :
    (children.insert cid job).entries.length ≤ children.entries.length + 1 := by
  rw [length_entries, length_entries, AList.keys_insert, List.length_cons]
  exact Nat.succ_le_succ List.length_erase_le

theorem length_insert_of_mem {children : Children} {cid : Nat} (job : Row) (h : cid ∈ children) :
    (children.insert cid job).entries.length = children.entries.length := by
  rw [length_entries, length_entries, AList.keys_insert, List.length_cons,
    List.length_erase_of_mem h]
  have hpos : 0 < children.keys.length := List.length_pos_of_mem h
  omega

theorem length_deleteChild_le (cid : Option Nat) (o : Own) :
    (deleteChild cid o).children.entries.length ≤ o.children.entries.length := by
  cases cid with
  | none => exact Nat.le_refl _
  | some c =>
    show (o.children.erase c).entries.length ≤ _
    rw [length_entries, length_entries, AList.keys_erase]
    exact List.length_erase_le

/-! ## The steps of a block -/

section Block

variable {db : Jobs} {h : Hostname} {maxFeed : Int} {o : Own}

/-- A launch, when the pid is not in use. -/
theorem Accounts.launch (ha : Accounts db h maxFeed o.children) {job : Row}
    (hbusy : busy maxFeed o = false) (hjob : getjob h db = some job) {e : Fork}
    (hfresh : e.pid ∉ o.children) :
    Accounts (jobisrunning (launched h e job) db) h maxFeed (o.launch h e job).children := by
  refine ⟨ha.owns.launch hjob e, ?_, ?_⟩
  · intro r hr hrun hhost
    rcases Jobs.mem_update_jid.mp hr with ⟨hr, -⟩ | ⟨r', -, hjid, rfl⟩
    · -- an old row, and its old entry: the new pid is another
      obtain ⟨cid, j, hl, hj⟩ := ha.covers r hr hrun hhost
      refine ⟨cid, j, ?_, hj⟩
      have hne : cid ≠ e.pid := by
        rintro rfl
        exact hfresh (AList.lookup_isSome.mp (by rw [hl]; rfl))
      show (o.children.insert e.pid (launched h e job)).lookup cid = some j
      rw [AList.lookup_insert_ne hne, hl]
    · exact ⟨e.pid, launched h e job, AList.lookup_insert _, hjid.symm⟩
  · have hlt : (o.children.entries.length : Int) < maxFeed := by
      simpa [busy] using hbusy
    have hle := length_insert_le o.children e.pid (launched h e job)
    show ((o.children.insert e.pid (launched h e job)).entries.length : Int) ≤ _
    omega

/-- Recording and deleting a child that is in the table. -/
theorem Accounts.jobisdone (ha : Accounts db h maxFeed o.children) {c : Nat} {d : Reaped}
    {job : Row} (hl : o.children.lookup c = some job) (hj : job.jid = d.child.jid) :
    Accounts (JobQueue.jobisdone d.job db) h maxFeed (deleteChild (some c) o).children := by
  have hrun : Runs db h c d.child.jid := hj ▸ ha.owns c job hl
  refine ⟨ha.owns.jobisdone ⟨c, hrun, Or.inl rfl⟩, ?_, ?_⟩
  · intro r hr hr_run hhost
    rcases Jobs.mem_update_jid.mp hr with ⟨hr, hne⟩ | ⟨r', -, -, rfl⟩
    · obtain ⟨cid, j, hlj, hjr⟩ := ha.covers r hr hr_run hhost
      refine ⟨cid, j, ?_, hjr⟩
      have hcid : cid ≠ c := by
        rintro rfl
        obtain rfl : job = j := Option.some.inj (hl.symm.trans hlj)
        exact hne (hjr.symm.trans hj)
      show (o.children.erase c).lookup cid = some j
      rw [AList.lookup_erase_ne hcid, hlj]
    · exact absurd hr_run (by show some "finished" ≠ _; decide)
  · have hle := length_deleteChild_le (some c) o
    have hb := ha.bounded
    omega

/-- Taking a child leaves the pids and the jids of the entries. -/
theorem Accounts.take (ha : Accounts db h maxFeed o.children) {w : Waited} {child : Row}
    (hl : o.children.lookup w.cid = some child) :
    Accounts db h maxFeed (o.children.insert w.cid (finishJob w child)) := by
  have hmem : w.cid ∈ o.children := AList.lookup_isSome.mp (by rw [hl]; rfl)
  refine ⟨(ha.owns.take hl).1, ?_, ?_⟩
  · intro r hr hrun hhost
    obtain ⟨cid, j, hlj, hjr⟩ := ha.covers r hr hrun hhost
    by_cases hc : cid = w.cid
    · subst hc
      obtain rfl : child = j := Option.some.inj (hl.symm.trans hlj)
      exact ⟨w.cid, finishJob w child, AList.lookup_insert _, hjr⟩
    · exact ⟨cid, j, by rw [AList.lookup_insert_ne hc, hlj], hjr⟩
  · rw [length_insert_of_mem _ hmem]
    exact ha.bounded

end Block

/-! ## Whole blocks -/

/-- If none of the pids launched since `before` was in use, the feeder keeps its accounts. -/
def AccountsSince (before : List Launch) (h : Hostname) (maxFeed : Int) (db : Jobs) (o : Own) :
    Prop :=
  ∃ new, o.launches = before ++ new ∧
    ((∀ l ∈ new, l.reused = false) → Accounts db h maxFeed o.children)

theorem AccountsSince.launch {before : List Launch} {h : Hostname} {maxFeed : Int} {db : Jobs}
    {o : Own} (ha : AccountsSince before h maxFeed db o) {job : Row} (e : Fork)
    (hbusy : busy maxFeed o = false) (hjob : getjob h db = some job) :
    AccountsSince before h maxFeed (jobisrunning (launched h e job) db) (o.launch h e job) := by
  obtain ⟨new, hnew, ha⟩ := ha
  refine ⟨new ++ [⟨job.jid, e.pid, decide (e.pid ∈ o.children)⟩], ?_, fun hfresh => ?_⟩
  · show o.launches ++ [_] = _
    rw [hnew, List.append_assoc]
  · have hpid : e.pid ∉ o.children := by
      simpa using hfresh _ (List.mem_append_right _ (List.mem_singleton_self _))
    exact (ha fun l hl => hfresh l (List.mem_append_left _ hl)).launch hbusy hjob hpid

theorem startJobs_accounts {h : Hostname} {maxFeed : Int} {script : List Fork} {db db' : Jobs}
    {o o' : Own} (hr : startJobs h maxFeed script db o = ((db', o'), none))
    (ha : Accounts db h maxFeed o.children) : AccountsSince o.launches h maxFeed db' o' := by
  refine startJobs_rule (I := AccountsSince o.launches h maxFeed) ?_ hr
    ⟨[], by simp, fun _ => ha⟩
  exact fun jobs o job e hi hb hj => hi.launch e hb hj

/-- The current child is in the table of children. -/
def InChildren (o : Own) (cid : Option Nat) (d : Reaped) : Prop :=
  ∃ c job, cid = some c ∧ o.children.lookup c = some job ∧ job.jid = d.child.jid

theorem reapLoop_accounts {h : Hostname} {maxFeed : Int} {reapOnly : Bool} {turns : List Turn}
    {loopno : Nat} {db db' : Jobs} {o o' : Own} {v v' : Vars}
    (hr : reapLoop h maxFeed reapOnly turns loopno db (o, v) = ((db', (o', v')), none))
    (ha : Accounts db h maxFeed o.children) (hcur : ∀ d, v.job = some d → InChildren o v.cid d) :
    AccountsSince o.launches h maxFeed db' o' := by
  refine reapLoop_rule (I := fun jobs o₁ _ => AccountsSince o.launches h maxFeed jobs o₁)
    (C := fun _ o₁ cid d => InChildren o₁ cid d) ?_ ?_ ?_ hr ⟨[], by simp, fun _ => ha⟩ hcur
  · rintro jobs o₁ cid l d ⟨new, hnew, ha⟩ ⟨c, job, rfl, hl, hj⟩
    exact ⟨new, hnew, fun hfresh => (ha hfresh).jobisdone hl hj⟩
  · exact fun jobs o₁ l job e hi hb hj => hi.launch e hb hj
  · rintro jobs o₁ l w child ⟨new, hnew, ha⟩ hl
    refine ⟨⟨new, hnew, fun hfresh => (ha hfresh).take hl⟩, w.cid, finishJob w child, rfl, ?_, rfl⟩
    exact AList.lookup_insert _

/-! ## Which runs -/

/-- The pids of the children launched from `o` to `o'` were not in use. -/
def FreshPids (o o' : Own) : Prop := ∀ l ∈ o'.launches.drop o.launches.length, l.reused = false

/-- No feeder crashes, every transaction commits at its first attempt and returns, the operating
    system does not hand out the pid of an unreaped child, and clients' values and arguments are
    plain — those of `touch` apart, which are left open. -/
def FirstTry (cfg : Config ι) (s : State ι) : Label ι → Prop
  | .client (.touch _ _ _) => True
  | .client c => c.Plain
  | .start i a => startCommits cfg s i a = true ∧ (startAttempt cfg s i a).2 = none ∧
      FreshPids (s.feeder i).own (startAttempt cfg s i a).1.priv
  | .wait i _ w => w.cid ∈ (s.feeder i).own.children
  | .reap i a => ∀ reapOnly errors, (s.feeder i).phase = .reaping reapOnly errors →
      reapCommits cfg s i reapOnly a = true ∧ (reapAttempt cfg s i reapOnly a).2 = none ∧
      FreshPids (s.feeder i).own (reapAttempt cfg s i reapOnly a).1.priv.1
  | .crash _ => False
  | .restart _ _ => False

/-- No value of a `touch` carries a quote. -/
def PlainTouch : Label ι → Prop
  | .client (.touch _ _ jobs) => ∀ job ∈ jobs, QuoteFree (touchKvs job)
  | _ => True

/-! ## Every run -/

/-- The invariant: every feeder's accounts are in order, the child a `reap_jobs` works on is still in
    them, and every running row is some feeder's. -/
structure InOrder (cfg : Config ι) (s : State ι) : Prop where
  accounts : ∀ i, Accounts s.jobs (cfg.host i) (cfg.maxFeed i) (s.feeder i).own.children
  current : ∀ i reapOnly errors, (s.feeder i).phase = .reaping reapOnly errors →
    ∀ d, (s.feeder i).vars.job = some d → InChildren (s.feeder i).own (s.feeder i).vars.cid d
  hosted : ∀ r ∈ s.jobs, r.state = some "running" → ∃ i, r.runner = some (cfg.host i).name

/-- Accounts only speak of running rows of their host. -/
theorem Accounts.transfer {db db' : Jobs} {h : Hostname} {maxFeed : Int} {children : Children}
    (ha : Accounts db h maxFeed children)
    (hsame : ∀ r : Row, r.state = some "running" → r.runner = some h.name → (r ∈ db ↔ r ∈ db')) :
    Accounts db' h maxFeed children := by
  refine ⟨fun cid job hl => ?_, fun r hr hrun hhost => ?_, ha.bounded⟩
  · obtain ⟨r, hr, hjid, hrun, hhost, hpid⟩ := ha.owns cid job hl
    exact ⟨r, (hsame r hrun hhost).mp hr, hjid, hrun, hhost, hpid⟩
  · exact ha.covers r ((hsame r hrun hhost).mpr hr) hrun hhost

/-- Only feeder `i` moved, and it left the running rows of other hosts alone. -/
theorem InOrder.step_of {cfg : Config ι} {s : State ι} (hs : InOrder cfg s) {i : ι} {m : Member}
    {jobs : Jobs} {history : List Event} (hf : Frame (cfg.host i) s.jobs jobs)
    (ha : Accounts jobs (cfg.host i) (cfg.maxFeed i) m.own.children)
    (hcur : ∀ reapOnly errors, m.phase = .reaping reapOnly errors →
      ∀ d, m.vars.job = some d → InChildren m.own m.vars.cid d) :
    InOrder cfg { jobs := jobs, feeder := Function.update s.feeder i m, history := history } := by
  refine ⟨fun j => ?_, fun j => ?_, fun r hr hrun => ?_⟩
  · show Accounts jobs (cfg.host j) (cfg.maxFeed j) (Function.update s.feeder i m j).own.children
    by_cases hj : j = i
    · subst hj
      rw [Function.update_self]
      exact ha
    · rw [Function.update_of_ne hj]
      refine (hs.accounts j).transfer fun r hrun hhost => hf r hrun ?_
      rw [hhost]
      exact fun heq => hj (cfg.distinct (Hostname.ext (Option.some.inj heq)))
  · show ∀ reapOnly errors, (Function.update s.feeder i m j).phase = .reaping reapOnly errors →
      ∀ d, (Function.update s.feeder i m j).vars.job = some d →
        InChildren (Function.update s.feeder i m j).own (Function.update s.feeder i m j).vars.cid d
    by_cases hj : j = i
    · subst hj
      rw [Function.update_self]
      exact hcur
    · rw [Function.update_of_ne hj]
      exact hs.current j
  · by_cases hhost : r.runner = some (cfg.host i).name
    · exact ⟨i, hhost⟩
    · exact hs.hosted r ((hf r hrun hhost).mpr hr) hrun

/-- The launches of a block, and its accounts when their pids were fresh. -/
theorem AccountsSince.fresh {o o' : Own} {h : Hostname} {maxFeed : Int} {db : Jobs}
    (ha : AccountsSince o.launches h maxFeed db o') (hfresh : FreshPids o o') :
    Accounts db h maxFeed o'.children := by
  obtain ⟨new, hnew, ha⟩ := ha
  refine ha fun l hl => hfresh l ?_
  rwa [hnew, List.drop_left]

omit [DecidableEq ι] in
theorem plain_of_firstTry {cfg : Config ι} {s : State ι} {c : Client}
    (hg : FirstTry cfg s (.client c)) (ht : PlainTouch (.client c : Label ι)) : c.Plain := by
  cases c with
  | touch now host jobs => exact ht
  | _ => exact hg

theorem inOrder_step {cfg : Config ι} {s t : State ι} {l : Label ι} (hs : InOrder cfg s)
    (hg : FirstTry cfg s l) (ht : PlainTouch l) (h : step cfg s l = some t) : InOrder cfg t := by
  rcases step_cases h with ⟨c, jobs, rfl, hc, rfl⟩ | ⟨i, a, errors, rfl, hp, rfl⟩ |
    ⟨i, reapOnly, w, rfl, hp, rfl⟩ | ⟨i, a, reapOnly, errors, rfl, hp, rfl⟩ | ⟨i, rfl, rfl⟩ |
    ⟨i, started, rfl, hp, rfl⟩
  · -- a client: the running rows are the same
    have hsame := Client.sameRunning (plain_of_firstTry hg ht) hc
    exact ⟨fun i => (hs.accounts i).transfer fun r hrun _ => hsame r hrun, hs.current,
      fun r hr hrun => hs.hosted r ((hsame r hrun).mpr hr) hrun⟩
  · -- `start_jobs`
    obtain ⟨hcommits, hnone, hfresh⟩ := hg
    have hblock := startAttempt_committed hcommits
    obtain ⟨-, hframe⟩ := startJobs_owns hblock (hs.accounts i).owns
    refine hs.step_of hframe ((startJobs_accounts hblock (hs.accounts i)).fresh hfresh) ?_
    intro reapOnly errors' hphase
    have hphase : Phase.after (cfg.retries i) errors .starting (startAttempt cfg s i a).2
        = .reaping reapOnly errors' := hphase
    rw [hnone] at hphase
    cases hphase
  · -- `waitpid2`
    obtain ⟨child, hl⟩ := Option.isSome_iff_exists.mp (AList.lookup_isSome.mpr hg)
    have htake : takeChild w (s.feeder i).own { cid := none, job := none }
        = (({ (s.feeder i).own with
              children := (s.feeder i).own.children.insert w.cid (finishJob w child) },
            { cid := some w.cid, job := some ⟨w, child⟩, taken := 1 }), none) := by
      simp [takeChild, hl]
    unfold State.wait
    simp only [htake]
    refine hs.step_of (Frame.refl _ _) ((hs.accounts i).take hl) ?_
    rintro reapOnly' errors' - d hd
    cases hd
    exact ⟨w.cid, finishJob w child, rfl, AList.lookup_insert _, rfl⟩
  · -- `reap_jobs`
    obtain ⟨hcommits, hnone, hfresh⟩ := hg reapOnly errors hp
    have hblock := reapAttempt_committed hcommits
    have hcur := hs.current i reapOnly errors hp
    have hframe := (reapLoop_owns hblock (hs.accounts i).owns (fun d hd => by
      obtain ⟨c, job, hcid, hl, hj⟩ := hcur d hd
      exact ⟨c, hj ▸ (hs.accounts i).owns c job hl, Or.inl hcid⟩)).2.1
    refine hs.step_of hframe ((reapLoop_accounts hblock (hs.accounts i) hcur).fresh hfresh) ?_
    intro reapOnly' errors' hphase
    have hphase : Phase.after (cfg.retries i) errors (.reaping reapOnly)
        (reapAttempt cfg s i reapOnly a).2 = .reaping reapOnly' errors' := hphase
    rw [hnone] at hphase
    cases hphase
  · exact hg.elim
  · exact hg.elim

omit [DecidableEq ι] in
theorem InOrder.ownership {cfg : Config ι} {s : State ι} (hs : InOrder cfg s) :
    Ownership cfg s := by
  refine ⟨fun r hr => ⟨fun hrun => ?_, ?_⟩, fun i => (hs.accounts i).bounded⟩
  · obtain ⟨i, hhost⟩ := hs.hosted r hr hrun
    obtain ⟨cid, job, hl, hj⟩ := (hs.accounts i).covers r hr hrun hhost
    have hown : Runs s.jobs (cfg.host i) cid r.jid := hj ▸ (hs.accounts i).owns cid job hl
    refine ⟨i, cid, ⟨job, hl, hj⟩, ?_, hhost, ?_⟩
    · -- a row has one host and one pid, so there is no second entry
      rintro j c ⟨job', hl', hj'⟩
      have hown' : Runs s.jobs (cfg.host j) c r.jid := hj' ▸ (hs.accounts j).owns c job' hl'
      obtain ⟨hji, hc⟩ := hown'.unique hown
      exact ⟨cfg.distinct hji, hc⟩
    · obtain ⟨r', hr', hjid, -, -, hpid⟩ := hown
      rwa [Jobs.eq_of_jid hr hr' hjid.symm]
  · rintro ⟨i, cid, ⟨job, hl, hj⟩, -⟩
    obtain ⟨r', hr', hjid, hrun, -⟩ := (hs.accounts i).owns cid job hl
    rwa [Jobs.eq_of_jid hr hr' (hj.symm.trans hjid.symm)]

/-- A queue with no running row, on which every feeder has just been started. -/
def NothingRuns (s : State ι) : Prop := Initial s ∧ ∀ r ∈ s.jobs, r.state ≠ some "running"

/-- **Ownership of running jobs.**  For any feeders on distinct hosts, none of which crashes, and
    any interleaving of transactions that commit at their first attempt: a row runs if and only if
    exactly one entry of exactly one feeder stands for it, on its host and under its pid; and no
    feeder has more children than it may — as long as no value of a `touch` carries a quote. -/
theorem running_iff_owned (cfg : Config ι) (s : State ι)
    (h : Reach NothingRuns (step cfg) (fun s l => FirstTry cfg s l ∧ PlainTouch l) s) :
    Ownership cfg s := by
  have horder : InOrder cfg s := by
    refine Reach.invariant (I := InOrder cfg) ?_ ?_ h
    · rintro s ⟨⟨h0, -⟩, hnone⟩
      refine ⟨fun i => ?_, fun i => ?_, fun r hr hrun => absurd hrun (hnone r hr)⟩
      · rw [h0 i]
        refine ⟨?_, fun r hr hrun => absurd hrun (hnone r hr), le_max_left _ _⟩
        intro cid job hl
        cases hl
      · rw [h0 i]
        intro reapOnly errors hp
        cases hp
    · exact fun s l t hs hg hst => inOrder_step hs hg.1 hg.2 hst
  exact horder.ownership

theorem running_row_owned :
    ∃ s, step oneFeeder onePending
        (.start () { script := [{ pid := 100, now := "2005-07-02" }] }) = some s ∧
      (∃ r ∈ s.jobs.rows, r.state = some "running") ∧ Ownership oneFeeder s := by
  obtain ⟨s, hs, hobs⟩ : ∃ s, exec (step oneFeeder)
      ([] ++ [.start () { script := [{ pid := 100, now := "2005-07-02" }] }]) onePending = some s ∧
      decide (∃ r ∈ s.jobs.rows, r.state = some "running") = true := exists_of_any (by decide)
  obtain ⟨u, hu, hs⟩ := exec_concat hs
  cases hu
  refine ⟨s, hs, of_decide_eq_true hobs, running_iff_owned oneFeeder s ?_⟩
  refine Reach.step (Reach.init ⟨⟨fun _ => rfl, rfl⟩, ?_⟩) ?_ hs
  · show ∀ r ∈ onePending.jobs.rows, r.state ≠ some "running"
    decide
  · refine ⟨⟨by decide, by decide, ?_⟩, trivial⟩
    unfold FreshPids
    decide

/-- `rq q touch --runner "x', state='running" make`. -/
def quotedTouch : Client :=
  .touch "2005-07-02" "node1" [{ command := some "make", runner := some "x', state='running" }]

set_option maxRecDepth 2000 in
/-- The statement it makes assigns two columns, and a row runs that no feeder has started. -/
theorem touch_makes_running_row :
    ∃ s, Reach NothingRuns (step oneFeeder) (FirstTry oneFeeder) s ∧ ¬ Ownership oneFeeder s := by
  obtain ⟨s, hs, hobs⟩ : ∃ s, exec (step oneFeeder) [.client quotedTouch] onePending = some s ∧
      decide ((s.feeder ()).own.children.keys = [] ∧
        ∃ r ∈ s.jobs.rows, r.state = some "running") = true := exists_of_any (by decide)
  obtain ⟨hkeys, r, hr, hrun⟩ := of_decide_eq_true hobs
  have hstart : NothingRuns onePending := by
    refine ⟨⟨fun _ => rfl, rfl⟩, ?_⟩
    show ∀ r ∈ onePending.jobs.rows, r.state ≠ some "running"
    decide
  have halong : Along (step oneFeeder) (FirstTry oneFeeder) [.client quotedTouch] onePending :=
    ⟨trivial, fun _ _ => trivial⟩
  refine ⟨s, Reach.exec (Reach.init hstart) halong hs, fun hown => ?_⟩
  obtain ⟨i, cid, ⟨job, hl, -⟩, -⟩ := (hown.running_iff r hr).mp hrun
  have hmem : cid ∈ (s.feeder ()).own.children.keys :=
    AList.lookup_isSome.mp (by rw [hl]; rfl)
  rw [hkeys] at hmem
  cases hmem

end RubyQueue.System
