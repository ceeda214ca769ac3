/-
  How much does a feeder run at a time?

  `--max_feed` bounds the number of jobs a feeder runs.  The only test of it is `busy?`, which counts
  `@children`, and it is made before every call of `getjob`, so the bound is kept whatever raises and
  however often a transaction is run again: `@children` has at most `max_feed` entries in EVERY run,
  crashes and failed attempts included (`children_bounded`).

  What the table says to run is another matter: a rollback takes a completion back, and the row runs on
  with no child.  Where every transaction commits at its first attempt, each running row has its entry,
  and then at most `max_feed` rows of the table run on a host (`running_rows_bounded`).
-/
import RubyQueue.Ownership

namespace RubyQueue.System

open RubyQueue.JobQueue RubyQueue.Qdb RubyQueue.Feeder RubyQueue.Run

/-! ## Blocks, also those that raise -/

section Block

variable {h : Hostname} {maxFeed : Int}

/-- At most `max_feed` children, and none for a negative one. -/
def Within (maxFeed : Int) (o : Own) : Prop := (o.children.entries.length : Int) ≤ max 0 maxFeed

/-- A launch adds one entry at most, wherever it raises. -/
theorem startJob_within (job : Row) (e : Fork) (db : Jobs) {o : Own}
    (hw : (o.children.entries.length : Int) < maxFeed) :
    Within maxFeed (startJob h job e db o).1.2 := by
  have hsame : Within maxFeed o := by
    unfold Within
    omega
  have hinsert : ∀ row, Within maxFeed { o with
      children := o.children.insert e.pid row
      launches := o.launches ++ [⟨job.jid, e.pid, decide (e.pid ∈ o.children)⟩] } := by
    intro row
    have := length_insert_le o.children e.pid row
    show ((o.children.insert e.pid row).entries.length : Int) ≤ _
    omega
  unfold startJob
  split
  · exact hsame
  · simp only
    split
    · exact hsame
    · split
      · exact hinsert _
      · exact hinsert _

theorem startJobs_within : ∀ {script : List Fork} {db : Jobs} {o : Own}, Within maxFeed o →
    Within maxFeed (startJobs h maxFeed script db o).1.2 := by
  intro script
  induction script with
  | nil =>
    intro db o hw
    rw [startJobs]
    split
    · exact hw
    · split
      · exact hw
      · exact hw
  | cons e script ih =>
    intro db o hw
    rw [startJobs]
    split
    · exact hw
    rename_i hbusy
    split
    · exact hw
    rename_i job _
    have hfew : (o.children.entries.length : Int) < maxFeed := by simpa [busy] using hbusy
    have hnext : Within maxFeed (startJob h job e db o).1.2 := startJob_within job e db hfew
    simp only
    split
    · rename_i hok
      rw [hok] at hnext
      exact ih hnext
    · exact hnext

theorem deleteChild_within {cid : Option Nat} {o : Own} (hw : Within maxFeed o) :
    Within maxFeed (deleteChild cid o) := by
  have hle := length_deleteChild_le cid o
  unfold Within at hw ⊢
  omega

/-- Taking a child replaces its entry. -/
theorem takeChild_within {w : Waited} {o : Own} {v : Vars} (hw : Within maxFeed o) :
    Within maxFeed (takeChild w o v).1.1 := by
  unfold takeChild
  split
  · exact hw
  · rename_i child hl
    have hmem : w.cid ∈ o.children := AList.lookup_isSome.mp (by rw [hl]; rfl)
    show ((o.children.insert w.cid (finishJob w child)).entries.length : Int) ≤ _
    rw [length_insert_of_mem _ hmem]
    exact hw

theorem reapLoop_within {reapOnly : Bool} : ∀ {turns : List Turn} {loopno : Nat} {db : Jobs}
    {o : Own} {v : Vars}, Within maxFeed o →
    Within maxFeed (reapLoop h maxFeed reapOnly turns loopno db (o, v)).1.2.1 := by
  intro turns
  induction turns with
  | nil => exact fun hw => hw
  | cons t turns ih =>
    intro loopno db o v hw
    rw [reapLoop]
    split
    · exact hw
    rename_i done _
    split
    · exact hw
    simp only
    have hdel : Within maxFeed (deleteChild v.cid o) := deleteChild_within hw
    -- with or without `start_jobs`
    have hstart : ∀ {db₀ db₁ : Jobs} {o₁ : Own} {err : Option Err},
        (if (reapOnly || t.signaled) = true then ((db₀, deleteChild v.cid o), none)
          else startJobs h maxFeed t.forks db₀ (deleteChild v.cid o)) = ((db₁, o₁), err) →
        Within maxFeed o₁ := by
      intro db₀ db₁ o₁ err hs
      split at hs
      · cases hs
        exact hdel
      · have hblock : Within maxFeed (startJobs h maxFeed t.forks db₀ (deleteChild v.cid o)).1.2 :=
          startJobs_within hdel
        rwa [hs] at hblock
    split
    · rename_i hs
      exact hstart hs
    rename_i hs
    have ho₁ := hstart hs
    split
    · exact ho₁
    split
    · exact ho₁
    · exact ho₁
    rename_i w _
    have htake := takeChild_within (w := w)
      (v := { v with reaped := v.reaped ++ [done] }) ho₁
    split
    · rename_i p hp
      rw [hp] at htake
      exact ih htake
    · rename_i p e hp
      rw [hp] at htake
      exact htake

end Block

/-! ## Every run -/

variable {ι : Type} [DecidableEq ι]

theorem within_step {cfg : Config ι} {s t : State ι} {l : Label ι}
    (hs : ∀ i, Within (cfg.maxFeed i) (s.feeder i).own) (h : step cfg s l = some t) (i : ι) :
    Within (cfg.maxFeed i) (t.feeder i).own := by
  -- only one feeder moves
  have hupdate : ∀ {j : ι} {m : Member}, Within (cfg.maxFeed j) m.own →
      Within (cfg.maxFeed i) (Function.update s.feeder j m i).own := by
    intro j m hm
    by_cases hij : i = j
    · subst hij
      rw [Function.update_self]
      exact hm
    · rw [Function.update_of_ne hij]
      exact hs i
  rcases step_cases h with ⟨c, jobs, rfl, -, rfl⟩ | ⟨j, a, errors, rfl, -, rfl⟩ |
    ⟨j, reapOnly, w, rfl, -, rfl⟩ | ⟨j, a, reapOnly, errors, rfl, -, rfl⟩ | ⟨j, rfl, rfl⟩ |
    ⟨j, started, rfl, -, rfl⟩
  · exact hs i
  · refine hupdate ?_
    show Within (cfg.maxFeed j) (startAttempt cfg s j a).1.priv
    have hblock : Within (cfg.maxFeed j) (startJobs (cfg.host j) (cfg.maxFeed j) a.script s.jobs
        (s.feeder j).own).1.2 := startJobs_within (hs j)
    rcases attempt_cases (startBody (cfg.host j) (cfg.maxFeed j)) a
      { db := s.jobs, priv := (s.feeder j).own } with ⟨-, -, -, hpriv⟩ | ⟨-, -, hpriv | hpriv⟩
    · exact hpriv ▸ hblock
    · exact hpriv ▸ hs j
    · exact hpriv ▸ hblock
  · refine hupdate ?_
    have htake := takeChild_within (w := w) (v := { cid := none, job := none }) (hs j)
    split
    · rename_i heq
      rw [heq] at htake
      exact htake
    · rename_i heq
      rw [heq] at htake
      exact htake
  · refine hupdate ?_
    show Within (cfg.maxFeed j) (reapAttempt cfg s j reapOnly a).1.priv.1
    have hblock : Within (cfg.maxFeed j) (reapLoop (cfg.host j) (cfg.maxFeed j) reapOnly a.script 0
        s.jobs ((s.feeder j).own, (s.feeder j).vars)).1.2.1 := reapLoop_within (hs j)
    rcases attempt_cases (reapBody (cfg.host j) (cfg.maxFeed j) reapOnly) a
      { db := s.jobs, priv := ((s.feeder j).own, (s.feeder j).vars) }
      with ⟨-, -, -, hpriv⟩ | ⟨-, -, hpriv | hpriv⟩
    · exact hpriv ▸ hblock
    · exact hpriv ▸ hs j
    · exact hpriv ▸ hblock
  · exact hupdate (hs j)
  · refine hupdate ?_
    show (0 : Int) ≤ _
    exact le_max_left _ _

/-- **No feeder has more than `max_feed` children**, in any run: whatever the clients do, whichever
    attempts fail and are run again or given up, whoever crashes and comes back. -/
theorem children_bounded (cfg : Config ι) (s : State ι)
    (h : Reach Initial (step cfg) (fun _ _ => True) s) (i : ι) :
    ((s.feeder i).own.children.entries.length : Int) ≤ max 0 (cfg.maxFeed i) := by
  have hall : ∀ i, Within (cfg.maxFeed i) (s.feeder i).own := by
    refine Reach.invariant (I := fun s => ∀ i, Within (cfg.maxFeed i) (s.feeder i).own) ?_
      (fun s l t hs _ hst => within_step hs hst) h
    intro s hs i
    rw [hs.1 i]
    show (0 : Int) ≤ _
    exact le_max_left _ _
  exact hall i

/-- The attempt that fails leaves its child, and with the one of the next attempt the feeder has as
    many as it may have: two, for one job. -/
theorem full_after_retry : ∃ s, exec (step oneFeeder) retriedStart onePending = some s ∧
    (s.feeder ()).own.children.entries.length = 2 ∧
    ((s.feeder ()).own.children.entries.length : Int) ≤ max 0 (oneFeeder.maxFeed ()) := by
  obtain ⟨s, hs, hobs⟩ : ∃ s, exec (step oneFeeder) retriedStart onePending = some s ∧
      decide ((s.feeder ()).own.children.entries.length = 2) = true := exists_of_any (by decide)
  have hr : Reach Initial (step oneFeeder) (fun _ _ => True) s :=
    Reach.exec (Reach.init ⟨fun _ => rfl, rfl⟩) (along_true _ _) hs
  exact ⟨s, hs, of_decide_eq_true hobs, children_bounded oneFeeder s hr ()⟩

/-- The rows of the table that run on a host. -/
def runningOn (host : Hostname) (db : Jobs) : List Row :=
  db.rows.filter fun r => decide (r.state = some "running" ∧ r.runner = some host.name)

/-- Rows that have entries are no more than the entries: a row has one jid, and its entry has it. -/
theorem Covers.length_le {db : Jobs} {host : Hostname} {children : Children}
    (hc : Covers db host children) : (runningOn host db).length ≤ children.entries.length := by
  have hnodup : ((runningOn host db).map Row.jid).Nodup :=
    ((List.pairwise_map.mpr db.sorted).imp fun hlt => Nat.ne_of_lt hlt).sublist
      (List.filter_sublist.map Row.jid)
  have hsub : (runningOn host db).map Row.jid ⊆ children.entries.map fun e => e.2.jid := by
    intro jid hjid
    obtain ⟨r, hr, rfl⟩ := List.mem_map.mp hjid
    obtain ⟨hmem, hrun⟩ := List.mem_filter.mp hr
    obtain ⟨hstate, hhost⟩ := of_decide_eq_true hrun
    obtain ⟨cid, job, hl, hj⟩ := hc r hmem hstate hhost
    exact List.mem_map.mpr ⟨⟨cid, job⟩, List.of_mem_dlookup hl, hj⟩
  have hle := (List.subperm_of_subset hnodup hsub).length_le
  rwa [List.length_map, List.length_map] at hle

/-- Along the runs of `running_iff_owned` the accounts are in order. -/
theorem inOrder_of_reach {cfg : Config ι} {s : State ι}
    (h : Reach NothingRuns (step cfg) (fun s l => FirstTry cfg s l ∧ PlainTouch l) s) :
    InOrder cfg s := by
  refine Reach.invariant (I := InOrder cfg) ?_
    (fun s l t hs hg hst => inOrder_step hs hg.1 hg.2 hst) h
  rintro s ⟨⟨h0, -⟩, hnone⟩
  refine ⟨fun i => ?_, fun i => ?_, fun r hr hrun => absurd hrun (hnone r hr)⟩
  · rw [h0 i]
    refine ⟨?_, fun r hr hrun => absurd hrun (hnone r hr), le_max_left _ _⟩
    intro cid job hl
    cases hl
  · rw [h0 i]
    intro reapOnly errors hp
    cases hp

/-- **At most `max_feed` rows run on a host**, as far as the table says: for any feeders on distinct
    hosts, none of which crashes, and any interleaving of transactions that commit at their first
    attempt, with the clients' values and arguments plain (those of a `touch` as well). -/
theorem running_rows_bounded (cfg : Config ι) (s : State ι)
    (h : Reach NothingRuns (step cfg) (fun s l => FirstTry cfg s l ∧ PlainTouch l) s) (i : ι) :
    ((runningOn (cfg.host i) s.jobs).length : Int) ≤ max 0 (cfg.maxFeed i) := by
  have horder := inOrder_of_reach h
  have hle := (horder.accounts i).covers.length_le
  have hb := (horder.accounts i).bounded
  omega

theorem one_row_runs : ∃ s, exec (step oneFeeder)
      ([] ++ [.start () { script := [{ pid := 100, now := "2005-07-02" }] }]) onePending = some s ∧
    (runningOn node1 s.jobs).length = 1 ∧ ((runningOn node1 s.jobs).length : Int) ≤ max 0 2 := by
  obtain ⟨s, hs, hobs⟩ : ∃ s, exec (step oneFeeder)
      ([] ++ [.start () { script := [{ pid := 100, now := "2005-07-02" }] }]) onePending = some s ∧
      decide ((runningOn node1 s.jobs).length = 1) = true := exists_of_any (by decide)
  obtain ⟨u, hu, hst⟩ := exec_concat hs
  cases hu
  refine ⟨s, hs, of_decide_eq_true hobs, running_rows_bounded oneFeeder s ?_ ()⟩
  refine Reach.step (Reach.init ⟨⟨fun _ => rfl, rfl⟩, ?_⟩) ?_ hst
  · show ∀ r ∈ onePending.jobs.rows, r.state ≠ some "running"
    decide
  · refine ⟨⟨by decide, by decide, ?_⟩, trivial⟩
    unfold FreshPids
    decide

end RubyQueue.System
