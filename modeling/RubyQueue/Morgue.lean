/-
  Which jobs a feeder finds dead when it comes back (`Feeder#fill_morgue`, `JobQueue#getdeadjobs`).

  A feeder notes the time it starts at (`@started`), and before it feeds it buries the running rows
  of its host whose `started` is not after that time — as TEXT.  Feeders on a host come one after
  the other and crash at any point; other hosts do likewise; clients run in between.  The clock
  never goes back, and `startedAt`, `startedBy` remember at which instant and by which feeder a job
  was started.

  * `Inv`           — running rows were started by feeders of their host, at instants in the past;
  * `morgue_exact`  — hence `fill_morgue` finds every running row of its host and no other row, as
                      long as the stamps of the host's jobs are not after the feeder's own, and no
                      other host with running rows has a name that is the same number.
-/
import RubyQueue.Base.Run
import RubyQueue.Clients
import RubyQueue.Children
import RubyQueue.Timestamp

namespace RubyQueue.Morgue

open RubyQueue.Sqlite RubyQueue.JobQueue RubyQueue.Feeder RubyQueue.Run RubyQueue.Util

/-! ## Feeders that come and go -/

/-- A live feeder: when it started, the how-manyth of its host it is, whether it has filled the
    morgue, and what it runs. -/
structure Up where
  started : Nat
  gen : Nat
  filled : Bool := false
  own : Own := {}

/-- The table, the live feeders, the clock, how many feeders each host has had, and who started
    which job when. -/
structure State where
  jobs : Jobs
  live : Hostname → Option Up := fun _ => none
  clock : Nat := 0
  gens : Hostname → Nat := fun _ => 0
  startedAt : Nat → Nat := fun _ => 0
  startedBy : Nat → Option (Hostname × Nat) := fun _ => none

/-- One event.  `feed` is the start of a feeder, up to `@started = Util::timestamp`. -/
inductive Event
  | client (c : Client)
  | feed (h : Hostname) (now : Nat)
  | fillMorgue (h : Hostname)
  | startJob (h : Hostname) (pid now : Nat)
  | jobIsDone (h : Hostname) (w : Waited)
  | crash (h : Hostname)

/-- One event; `none` when it is not possible. -/
def step (sqlite : OtherSql) (s : State) : Event → Option State
  | .client c =>
    match c.exec sqlite s.jobs with
    | .ok jobs => some { s with jobs := jobs }
    | .error _ => none
  | .feed h now =>
    match s.live h with
    | some _ => none
    | none =>
      if s.clock ≤ now then
        some { s with
          live := Function.update s.live h (some { started := now, gen := s.gens h + 1 })
          clock := now
          gens := Function.update s.gens h (s.gens h + 1) }
      else none
  | .fillMorgue h =>
    match s.live h with
    | some f =>
      if f.filled then none
      else
        some { s with
          jobs := fillMorgue h (timestamp f.started) s.jobs
          live := Function.update s.live h (some { f with filled := true }) }
    | none => none
  | .startJob h pid now =>
    match s.live h, getjob h s.jobs with
    | some f, some job =>
      if f.filled ∧ s.clock ≤ now then
        match startJob h job { pid := pid, now := timestamp now } s.jobs f.own with
        | ((jobs, own), none) =>
          some { s with
            jobs := jobs
            live := Function.update s.live h (some { f with own := own })
            clock := now
            startedAt := Function.update s.startedAt job.jid now
            startedBy := Function.update s.startedBy job.jid (some (h, f.gen)) }
        | _ => none
      else none
    | _, _ => none
  | .jobIsDone h w =>
    match s.live h with
    | none => none
    | some f =>
      match f.own.children.lookup w.cid with
      | none => none
      | some child =>
        some { s with
          jobs := jobisdone (finishJob w child) s.jobs
          live := Function.update s.live h (some { f with own := deleteChild (some w.cid) f.own }) }
  | .crash h => some { s with live := Function.update s.live h none }

/-- A freshly created queue. -/
def Fresh (s : State) : Prop := s = { jobs := Jobs.empty }

/-- The row runs on `h`. -/
def RunsOn (h : Hostname) (r : Row) : Prop := r.state = some "running" ∧ r.runner = some h.name

instance (h : Hostname) (r : Row) : Decidable (RunsOn h r) := inferInstanceAs (Decidable (_ ∧ _))

/-- The event keeps the stamps in order: years have four digits, and a feeder does not come up in
    the same second as the start of a job its host still runs, with last six digits that show
    less. -/
def InOrder (s : State) : Event → Prop
  | .feed h now => FourDigits now ∧ ∀ r ∈ s.jobs, RunsOn h r →
      s.startedAt r.jid / 1000000 = now / 1000000 →
      shown (s.startedAt r.jid % 1000000) ≤ shown (now % 1000000)
  | .startJob _ _ now => FourDigits now
  | .fillMorgue h => NoNamesake h s.jobs
  | _ => True

instance (s : State) (e : Event) : Decidable (InOrder s e) :=
  match e with
  | .feed h now => inferInstanceAs (Decidable (FourDigits now ∧ ∀ r ∈ s.jobs.rows, RunsOn h r →
      s.startedAt r.jid / 1000000 = now / 1000000 →
      shown (s.startedAt r.jid % 1000000) ≤ shown (now % 1000000)))
  | .startJob _ _ now => inferInstanceAs (Decidable (FourDigits now))
  | .client _ => instDecidableTrue
  | .fillMorgue h => inferInstanceAs (Decidable (NoNamesake h s.jobs))
  | .jobIsDone _ _ => instDecidableTrue
  | .crash _ => instDecidableTrue

/-- Clients stay within their statements, and the stamps stay in order. -/
def Good (s : State) (e : Event) : Prop := (∀ c, e = .client c → c.Plain) ∧ InOrder s e

/-! ## The invariant -/

/-- Where a running row comes from. -/
structure Begun (s : State) (h : Hostname) (r : Row) : Prop where
  stamp : r.started = some (timestamp (s.startedAt r.jid))
  past : s.startedAt r.jid ≤ s.clock
  fourDigits : FourDigits (s.startedAt r.jid)
  /-- by a feeder that is gone, or by the live one after it has filled the morgue -/
  by_ : ∃ g, s.startedBy r.jid = some (h, g) ∧ g ≤ s.gens h ∧
    ∀ f, s.live h = some f → f.filled = false → g < f.gen

/-- Running rows were begun on their host, and a feeder that has not filled the morgue started after
    them, on its own clock and by the stamps. -/
structure Inv (s : State) : Prop where
  begun : ∀ h, ∀ r ∈ s.jobs, RunsOn h r → Begun s h r
  live : ∀ h f, s.live h = some f → f.gen = s.gens h
  stale : ∀ h f, s.live h = some f → f.filled = false → ∀ r ∈ s.jobs, RunsOn h r →
    timestamp (s.startedAt r.jid) ≤ timestamp f.started

/-- **What `fill_morgue` finds**: the running rows of the host, when none is stamped later and the host
    has no namesake. -/
theorem mem_getdeadjobs_iff {s : State} (hs : Inv s) {h : Hostname} {f : Up}
    (hlive : s.live h = some f) (hf : f.filled = false) (hn : NoNamesake h s.jobs) {r : Row} :
    r ∈ getdeadjobs h (timestamp f.started) s.jobs ↔ r ∈ s.jobs ∧ RunsOn h r := by
  constructor
  · intro hr
    obtain ⟨hmem, hrun, -⟩ := mem_getdeadjobs hr
    exact ⟨hmem, hrun, getdeadjobs_runner hn hr⟩
  · rintro ⟨hmem, hrun⟩
    have hle := hs.stale h f hlive hf r hmem hrun
    unfold getdeadjobs
    rw [List.mem_filter, eqLit_word.2.2.1.mpr hrun.1, hrun.2, eqLit_self,
      (hs.begun h r hmem hrun).stamp]
    refine ⟨hmem, ?_⟩
    show (sqliteCompare (timestamp (s.startedAt r.jid)) (timestamp f.started) != .gt) = true
    rw [sqliteCompare_timestamp]
    simp only [bne_iff_ne, ne_eq, compare_gt_iff_gt, not_lt]
    exact hle

/-! ## Events that begin no job -/

/-- Feeders are the ones that were live, and none has become unfilled. -/
def SameFeeders (live live' : Hostname → Option Up) : Prop :=
  ∀ h f', live' h = some f' → ∃ f, live h = some f ∧ f'.gen = f.gen ∧ f'.started = f.started ∧
    (f'.filled = false → f.filled = false)

theorem SameFeeders.refl (live : Hostname → Option Up) : SameFeeders live live :=
  fun _ f h => ⟨f, h, rfl, rfl, id⟩

theorem SameFeeders.update {live : Hostname → Option Up} {h : Hostname} {f : Up}
    (hlive : live h = some f) {o : Option Up}
    (ho : ∀ f', o = some f' → f'.gen = f.gen ∧ f'.started = f.started ∧
      (f'.filled = false → f.filled = false)) :
    SameFeeders live (Function.update live h o) := by
  intro k f' hk
  by_cases hkh : k = h
  · subst hkh
    rw [Function.update_self] at hk
    exact ⟨f, hlive, ho f' hk⟩
  · rw [Function.update_of_ne hkh] at hk
    exact ⟨f', hk, rfl, rfl, id⟩

/-- No running row is new. -/
def NoneBegun (db db' : Jobs) : Prop := ∀ r ∈ db', r.state = some "running" → r ∈ db

/-- The invariant is kept by events that begin no job and start no feeder. -/
theorem Inv.shrink {s t : State} (hs : Inv s) (hrows : NoneBegun s.jobs t.jobs)
    (hlive : SameFeeders s.live t.live) (hclock : t.clock = s.clock) (hgens : t.gens = s.gens)
    (hat : t.startedAt = s.startedAt) (hby : t.startedBy = s.startedBy) : Inv t := by
  refine ⟨fun h r hr hrun => ?_, fun h f hf => ?_, fun h f hf hfill r hr hrun => ?_⟩
  · obtain ⟨hstamp, hpast, hfour, g, hg, hle, hlt⟩ := hs.begun h r (hrows r hr hrun.1) hrun
    rw [← hat] at hstamp hpast hfour
    refine ⟨hstamp, hclock ▸ hpast, hfour, g, hby ▸ hg, hgens ▸ hle, fun f' hf' hfill => ?_⟩
    obtain ⟨f, hf, hgen, -, hfilled⟩ := hlive h f' hf'
    rw [hgen]
    exact hlt f hf (hfilled hfill)
  · obtain ⟨f₀, hf₀, hgen, -, -⟩ := hlive h f hf
    rw [hgen, hgens]
    exact hs.live h f₀ hf₀
  · obtain ⟨f₀, hf₀, -, hstart, hfilled⟩ := hlive h f hf
    rw [hat, hstart]
    exact hs.stale h f₀ hf₀ (hfilled hfill) r (hrows r hr hrun.1) hrun

/-! ## Events that do -/

/-- A feeder comes up. -/
theorem Inv.feed {s : State} (hs : Inv s) {h : Hostname} {now : Nat} (hlive : s.live h = none)
    (hclock : s.clock ≤ now) (hord : InOrder s (.feed h now)) :
    Inv { s with
      live := Function.update s.live h (some { started := now, gen := s.gens h + 1 })
      clock := now
      gens := Function.update s.gens h (s.gens h + 1) } := by
  obtain ⟨hfour, hsame⟩ := hord
  refine ⟨fun k r hr hrun => ?_, fun k f hf => ?_, fun k f hf hfill r hr hrun => ?_⟩
  · obtain ⟨hstamp, hpast, hfour', g, hg, hle, hlt⟩ := hs.begun k r hr hrun
    refine ⟨hstamp, Nat.le_trans hpast hclock, hfour', g, hg, ?_, fun f hf hfill => ?_⟩
    · by_cases hkh : k = h
      · subst hkh
        simp only [Function.update_self]
        omega
      · simpa only [Function.update_of_ne hkh] using hle
    · by_cases hkh : k = h
      · -- everything that runs on the host was started by a feeder before this one
        subst hkh
        simp only [Function.update_self, Option.some.injEq] at hf
        subst hf
        show g < s.gens k + 1
        omega
      · simp only [Function.update_of_ne hkh] at hf
        exact hlt f hf hfill
  · by_cases hkh : k = h
    · subst hkh
      simp only [Function.update_self, Option.some.injEq] at hf ⊢
      subst hf
      rfl
    · simp only [Function.update_of_ne hkh] at hf ⊢
      exact hs.live k f hf
  · by_cases hkh : k = h
    · subst hkh
      simp only [Function.update_self, Option.some.injEq] at hf
      subst hf
      obtain ⟨-, hpast, hfour', -⟩ := hs.begun k r hr hrun
      apply not_lt.mp
      show ¬ timestamp now < timestamp (s.startedAt r.jid)
      rw [timestamp_lt_iff hfour hfour']
      by_cases hsec : s.startedAt r.jid / 1000000 = now / 1000000
      · have hle := hsame r hr hrun hsec
        omega
      · omega
    · simp only [Function.update_of_ne hkh] at hf
      exact hs.stale k f hf hfill r hr hrun

/-- A job is started. -/
theorem Inv.startJob {s : State} (hs : Inv s) {h : Hostname} {f : Up} (hlive : s.live h = some f)
    (hfilled : f.filled = true) {job : Row} {pid now : Nat}
    (hclock : s.clock ≤ now) (hfour : FourDigits now) :
    Inv { s with
      jobs := jobisrunning (launched h { pid := pid, now := timestamp now } job) s.jobs
      live := Function.update s.live h
        (some { f with own := f.own.launch h { pid := pid, now := timestamp now } job })
      clock := now
      startedAt := Function.update s.startedAt job.jid now
      startedBy := Function.update s.startedBy job.jid (some (h, f.gen)) } := by
  have hfeeders : SameFeeders s.live (Function.update s.live h
      (some { f with own := f.own.launch h { pid := pid, now := timestamp now } job })) :=
    SameFeeders.update hlive fun f' hf' => by
      cases hf'
      exact ⟨rfl, rfl, id⟩
  -- a running row is an old one, or the one that was started
  have hrows : ∀ r ∈ jobisrunning (launched h { pid := pid, now := timestamp now } job) s.jobs,
      (r ∈ s.jobs ∧ r.jid ≠ job.jid) ∨
      (r.jid = job.jid ∧ r.runner = some h.name ∧ r.started = some (timestamp now)) := by
    intro r hr
    rcases Jobs.mem_update_jid.mp hr with ⟨hr, hne⟩ | ⟨r₀, -, hj, rfl⟩
    · exact Or.inl ⟨hr, hne⟩
    · exact Or.inr ⟨hj, rfl, rfl⟩
  refine ⟨fun k r hr hrun => ?_, fun k f' hf' => ?_, fun k f' hf' hfill r hr hrun => ?_⟩
  · rcases hrows r hr with ⟨hr, hne⟩ | ⟨hj, hhost, hstart⟩
    · obtain ⟨hstamp, hpast, hfour', g, hg, hle, hlt⟩ := hs.begun k r hr hrun
      refine ⟨?_, ?_, ?_, g, ?_, hle, fun f' hf' hfill => ?_⟩
      · simpa only [Function.update_of_ne hne] using hstamp
      · simp only [Function.update_of_ne hne]
        omega
      · simpa only [Function.update_of_ne hne] using hfour'
      · simpa only [Function.update_of_ne hne] using hg
      · obtain ⟨f₀, hf₀, hgen, -, hun⟩ := hfeeders k f' hf'
        rw [hgen]
        exact hlt f₀ hf₀ (hun hfill)
    · obtain rfl : h = k := Hostname.ext (Option.some.inj (hhost.symm.trans hrun.2))
      refine ⟨?_, ?_, ?_, f.gen, ?_, ?_, fun f' hf' hfill => ?_⟩
      · rw [hstart, hj]
        simp only [Function.update_self]
      · rw [hj]
        simp only [Function.update_self]
        exact Nat.le_refl now
      · rw [hj]
        simpa only [Function.update_self] using hfour
      · rw [hj]
        simp only [Function.update_self]
      · exact Nat.le_of_eq (hs.live h f hlive)
      · simp only [Function.update_self, Option.some.injEq] at hf'
        subst hf'
        rw [hfilled] at hfill
        cases hfill
  · obtain ⟨f₀, hf₀, hgen, -⟩ := hfeeders k f' hf'
    rw [hgen]
    exact hs.live k f₀ hf₀
  · obtain ⟨f₀, hf₀, -, hstart, hun⟩ := hfeeders k f' hf'
    rcases hrows r hr with ⟨hr, hne⟩ | ⟨-, hhost, -⟩
    · simp only [Function.update_of_ne hne]
      rw [hstart]
      exact hs.stale k f₀ hf₀ (hun hfill) r hr hrun
    · obtain rfl : h = k := Hostname.ext (Option.some.inj (hhost.symm.trans hrun.2))
      simp only [Function.update_self, Option.some.injEq] at hf'
      subst hf'
      rw [hfilled] at hfill
      cases hfill

/-- **One event** keeps the invariant. -/
theorem Inv.step {sqlite : OtherSql} {s t : State} {e : Event} (hs : Inv s) (hg : Good s e)
    (h : Morgue.step sqlite s e = some t) : Inv t := by
  cases e with
  | client c =>
    simp only [Morgue.step] at h
    split at h
    swap
    · cases h
    rename_i jobs hc
    cases h
    refine hs.shrink (fun r hr hrun => ?_) (SameFeeders.refl _) rfl rfl rfl rfl
    exact (Client.sameRunning (hg.1 c rfl) hc r hrun).mpr hr
  | feed host now =>
    simp only [Morgue.step] at h
    split at h
    · cases h
    rename_i hlive
    split at h
    swap
    · cases h
    rename_i hclock
    cases h
    exact hs.feed hlive hclock hg.2
  | fillMorgue host =>
    simp only [Morgue.step] at h
    split at h
    swap
    · cases h
    rename_i f hlive
    split at h
    · cases h
    rename_i hfill
    cases h
    refine hs.shrink (fun r hr hrun => ?_) (SameFeeders.update hlive ?_) rfl rfl rfl rfl
    · rcases mem_fillMorgue.mp hr with ⟨hr, -⟩ | ⟨r₀, -, rfl⟩
      · exact hr
      · exact absurd hrun (by show some "dead" ≠ _; decide)
    · intro f' hf'
      cases hf'
      exact ⟨rfl, rfl, fun h => by cases h⟩
  | startJob host pid now =>
    simp only [Morgue.step] at h
    split at h
    swap
    · cases h
    rename_i f job hlive hjob
    split at h
    swap
    · cases h
    rename_i hcond
    rcases startJob_cases host job { pid := pid, now := timestamp now } s.jobs f.own with
      ⟨o', hraise, -⟩ | hok
    · rw [hraise] at h
      cases h
    · rw [hok] at h
      cases h
      exact hs.startJob hlive hcond.1 hcond.2 hg.2
  | jobIsDone host w =>
    simp only [Morgue.step] at h
    split at h
    · cases h
    rename_i f hlive
    split at h
    · cases h
    cases h
    refine hs.shrink (fun r hr hrun => ?_) (SameFeeders.update hlive ?_) rfl rfl rfl rfl
    · rcases Jobs.mem_update_jid.mp hr with ⟨hr, -⟩ | ⟨r₀, -, -, rfl⟩
      · exact hr
      · exact absurd hrun (by show some "finished" ≠ _; decide)
    · intro f' hf'
      cases hf'
      exact ⟨rfl, rfl, id⟩
  | crash host =>
    cases h
    refine hs.shrink (fun r hr _ => hr) (fun k f hf => ?_) rfl rfl rfl rfl
    by_cases hkh : k = host
    · subst hkh
      simp only [Function.update_self] at hf
      cases hf
    · simp only [Function.update_of_ne hkh] at hf
      exact ⟨f, hf, rfl, rfl, id⟩

theorem reach_inv {sqlite : OtherSql} {s : State} (h : Reach Fresh (step sqlite) Good s) :
    Inv s := by
  refine Reach.invariant (I := Inv) ?_ (fun s e t hs hg hst => hs.step hg hst) h
  rintro s rfl
  refine ⟨?_, ?_, ?_⟩
  · intro h r hr
    cases hr
  · intro h f hf
    cases hf
  · intro h f hf
    cases hf

/-- A feeder starts a job at `t` and crashes; the next one comes up at `u`. -/
def crashed (t u : Nat) : List Event :=
  [.feed node1 1000000, .fillMorgue node1,
   .client (.submit "1970-01-01" "node1" [{ command := some "make" }]),
   .startJob node1 100 t, .crash node1, .feed node1 u]

theorem crashed_plain (t u : Nat) : ∀ e ∈ crashed t u, ∀ c, e = .client c → c.Plain := by
  intro e he c hc
  subst hc
  simp only [crashed, List.mem_cons, reduceCtorEq, Event.client.injEq, List.not_mem_nil, or_false,
    false_or] at he
  subst he
  trivial

end RubyQueue.Morgue
