/-
  Does every child that was reaped end up recorded?

  `reap_jobs` takes children from `waitpid2` and deletes them from `@children` inside the block that
  `transaction_wrap` runs again after a rollback, and each further child replaces the variables
  `cid` and `job` the block starts from.  The invariant between attempts is `Sound`:

  * every entry of every `@children` has its row running there (`Owns`);
  * a feeder in `reap_jobs` has a current child, its row still runs, and it is the only child the
    call has reaped so far.

  It survives a rolled back attempt exactly as long as the attempt launched nothing and took no
  further child.  An attempt that commits then records all children of the call.
-/
import RubyQueue.Starts

namespace RubyQueue.System

open RubyQueue.JobQueue RubyQueue.Qdb RubyQueue.Feeder RubyQueue.Run

variable {ι : Type} [DecidableEq ι]

/-! ## The invariant -/

/-- A feeder and the table agree. -/
structure SoundAt (jobs : Jobs) (h : Hostname) (m : Member) : Prop where
  owns : Owns jobs h m.own.children
  current : ∀ reapOnly errors, m.phase = .reaping reapOnly errors →
    ∃ d, m.vars.job = some d ∧ Current jobs h m.own m.vars.cid d ∧ ∀ d' ∈ m.vars.reaped, d' = d

def Sound (cfg : Config ι) (s : State ι) : Prop :=
  ∀ i, SoundAt s.jobs (cfg.host i) (s.feeder i)

/-- It only speaks of rows that run on the feeder's host. -/
theorem SoundAt.transfer {jobs jobs' : Jobs} {h : Hostname} {m : Member}
    (hs : SoundAt jobs h m) (hr : ∀ cid jid, Runs jobs h cid jid → Runs jobs' h cid jid) :
    SoundAt jobs' h m := by
  refine ⟨fun cid job hl => hr cid job.jid (hs.owns cid job hl), fun reapOnly errors hp => ?_⟩
  obtain ⟨d, hd, ⟨c, hc, hcid⟩, hall⟩ := hs.current reapOnly errors hp
  exact ⟨d, hd, ⟨c, hr c d.child.jid hc, hcid⟩, hall⟩

/-- A feeder that is not in `reap_jobs`. -/
theorem SoundAt.of_owns {jobs : Jobs} {h : Hostname} {m : Member}
    (ho : Owns jobs h m.own.children) (hp : ∀ reapOnly errors, m.phase ≠ .reaping reapOnly errors) :
    SoundAt jobs h m :=
  ⟨ho, fun reapOnly errors hm => absurd hm (hp reapOnly errors)⟩

theorem sameRunning_runs {jobs jobs' : Jobs} (hsame : SameRunning jobs jobs') {h : Hostname}
    {cid jid : Nat} (hr : Runs jobs h cid jid) : Runs jobs' h cid jid := by
  obtain ⟨r, hr, hjid, hrun, hrest⟩ := hr
  exact ⟨r, (hsame r hrun).mp hr, hjid, hrun, hrest⟩

/-- Only feeder `i` moved, and it left the running rows of other hosts alone. -/
theorem Sound.step_of {cfg : Config ι} {s : State ι} (hs : Sound cfg s) {i : ι} {m : Member}
    {jobs : Jobs} {history : List Event} (hf : Frame (cfg.host i) s.jobs jobs)
    (hm : SoundAt jobs (cfg.host i) m) :
    Sound cfg { jobs := jobs, feeder := Function.update s.feeder i m, history := history } := by
  intro j
  by_cases hj : j = i
  · subst hj
    show SoundAt jobs (cfg.host j) (Function.update s.feeder j m j)
    rw [Function.update_self]
    exact hm
  · show SoundAt jobs (cfg.host j) (Function.update s.feeder i m j)
    rw [Function.update_of_ne hj]
    exact (hs j).transfer fun cid jid hr => hf.runs (fun heq => hj (cfg.distinct heq)) hr

/-! ## Which runs -/

/-- Clients stay within their statements, and an attempt of `reap_jobs` raises, if it does, no later
    than in its commit. -/
def InScope (cfg : Config ι) (s : State ι) : Label ι → Prop
  | .client c => c.Plain
  | .reap i a => ∀ reapOnly errors, (s.feeder i).phase = .reaping reapOnly errors →
      reapCommits cfg s i reapOnly a = true → (reapAttempt cfg s i reapOnly a).2 = none
  | _ => True

/-- No attempt that is rolled back has launched a job, or taken a further child from `waitpid2`, and
    no feeder comes up while a row runs under another name that is the same number as its host's. -/
def NothingLost (cfg : Config ι) (s : State ι) (l : Label ι) : Prop :=
  NoLostLaunch cfg s l ∧
  match l with
  | .reap i a => ∀ reapOnly errors, (s.feeder i).phase = .reaping reapOnly errors →
      reapCommits cfg s i reapOnly a = false →
      (reapAttempt cfg s i reapOnly a).1.priv.2.taken = (s.feeder i).vars.taken
  | .restart i _ => NoNamesake (cfg.host i) s.jobs
  | _ => True

/-! ## One step -/

/-- A rolled back attempt that lost nothing: the current child may be deleted, and is still the
    current child. -/
theorem SoundAt.sameChild {jobs : Jobs} {h : Hostname} {m : Member} {o : Own} {v : Vars}
    {reapOnly : Bool} {errors : Nat} {phase : Phase} (hs : SoundAt jobs h m)
    (hp : m.phase = .reaping reapOnly errors) (hsame : SameChild m.own m.vars o v) :
    SoundAt jobs h { own := o, vars := v, phase := phase } := by
  obtain ⟨d, hd, ⟨c, hc, hcid⟩, hall⟩ := hs.current reapOnly errors hp
  rcases hsame with ⟨rfl, rfl⟩ | ⟨rfl, d', hd', hjob, hreaped, hv⟩
  · exact ⟨hs.owns, fun _ _ _ => ⟨d, hd, ⟨c, hc, hcid⟩, hall⟩⟩
  · obtain rfl : d = d' := Option.some.inj (hd.symm.trans hd')
    refine ⟨hs.owns.mono fun k j hl => (lookup_deleteChild hl).1, fun _ _ _ => ?_⟩
    refine ⟨d, hjob, ⟨c, hc, ?_⟩, ?_⟩
    · -- no entry of the pid `c` is left once the child is deleted
      have hgone : c ∉ (deleteChild m.vars.cid m.own).children := by
        intro hmem
        obtain ⟨j, hj⟩ := Option.isSome_iff_exists.mp (AList.lookup_isSome.mpr hmem)
        obtain ⟨hj', hne⟩ := lookup_deleteChild hj
        rcases hcid with hcid | ⟨-, hnot⟩
        · exact hne hcid
        · exact hnot (AList.lookup_isSome.mp (by rw [hj']; rfl))
      rcases hv with hv | hv
      · rcases hcid with hcid | ⟨hnone, -⟩
        · exact Or.inl (hv.trans hcid)
        · exact Or.inr ⟨hv.trans hnone, hgone⟩
      · exact Or.inr ⟨hv, hgone⟩
    · intro d' hd'
      rw [hreaped] at hd'
      rcases List.mem_append.mp hd' with hd' | hd'
      · exact hall d' hd'
      · exact List.mem_singleton.mp hd'

omit [DecidableEq ι] in
/-- A committed attempt of `reap_jobs`: the feeder owns its children, the other hosts' rows are
    untouched, and all children of the call are recorded. -/
theorem reap_committed {cfg : Config ι} {s : State ι} {i : ι} {reapOnly : Bool} {errors : Nat}
    {a : Attempt (List Turn)} (hs : SoundAt s.jobs (cfg.host i) (s.feeder i))
    (hp : (s.feeder i).phase = .reaping reapOnly errors)
    (hc : reapCommits cfg s i reapOnly a = true) :
    Owns (reapAttempt cfg s i reapOnly a).1.db (cfg.host i)
      (reapAttempt cfg s i reapOnly a).1.priv.1.children ∧
    Frame (cfg.host i) s.jobs (reapAttempt cfg s i reapOnly a).1.db ∧
    ∀ d ∈ (reapAttempt cfg s i reapOnly a).1.priv.2.reaped,
      Recorded (reapAttempt cfg s i reapOnly a).1.db d := by
  obtain ⟨d, hd, hcur, hall⟩ := hs.current reapOnly errors hp
  have hloop := reapAttempt_committed hc
  obtain ⟨howns, hframe, new, hnew, hrec⟩ := reapLoop_owns hloop hs.owns
    (fun d' hd' => by obtain rfl := Option.some.inj (hd.symm.trans hd'); exact hcur)
  obtain ⟨d₁, rest, hd₁, hreaped⟩ := reapLoop_reaped hloop
  obtain rfl : d = d₁ := Option.some.inj (hd.symm.trans hd₁)
  have hfirst : new = d :: rest := List.append_cancel_left (hnew.symm.trans hreaped)
  refine ⟨howns, hframe, fun d' hd' => ?_⟩
  -- children reaped by earlier attempts are the current one, which was recorded first
  rw [hnew] at hd'
  rcases List.mem_append.mp hd' with hd' | hd'
  · rw [hall d' hd']
    exact hrec d (hfirst ▸ List.mem_cons_self)
  · exact hrec d' hd'

theorem sound_reap {cfg : Config ι} {s : State ι} {i : ι} {reapOnly : Bool} {errors : Nat}
    {a : Attempt (List Turn)} (hs : Sound cfg s)
    (hp : (s.feeder i).phase = .reaping reapOnly errors) (hscope : InScope cfg s (.reap i a))
    (hlost : NothingLost cfg s (.reap i a)) : Sound cfg (s.reap cfg i reapOnly errors a) := by
  cases hc : reapCommits cfg s i reapOnly a with
  | true =>
    obtain ⟨howns, hframe, -⟩ := reap_committed (hs i) hp hc
    refine hs.step_of hframe (SoundAt.of_owns howns ?_)
    intro reapOnly' errors'
    show Phase.after _ _ _ (reapAttempt cfg s i reapOnly a).2 ≠ _
    rw [hscope reapOnly errors hp hc]
    exact fun h => by cases h
  | false =>
    obtain ⟨hdb, hpriv⟩ := reapAttempt_rolledBack hc
    have hlaunch := hlost.1 reapOnly errors hp hc
    have htaken := hlost.2 reapOnly errors hp hc
    have hsame : SameChild (s.feeder i).own (s.feeder i).vars
        (reapAttempt cfg s i reapOnly a).1.priv.1 (reapAttempt cfg s i reapOnly a).1.priv.2 := by
      rcases hpriv with hpriv | hpriv
      · rw [hpriv]
        exact Or.inl ⟨rfl, rfl⟩
      · rw [hpriv] at hlaunch htaken ⊢
        obtain ⟨new, k, hnew, hk, heff⟩ := reapLoop_effects
          (show reapLoop (cfg.host i) (cfg.maxFeed i) reapOnly a.script 0 s.jobs
            ((s.feeder i).own, (s.feeder i).vars) = ((_, (_, _)), _) from rfl)
        have hnil : new = [] := by
          rw [hlaunch] at hnew
          simpa using hnew
        have hzero : k = 0 := Nat.add_left_cancel (hk.symm.trans htaken)
        exact heff hnil hzero
    refine hs.step_of ?_ ?_
    · rw [hdb]
      exact Frame.refl _ _
    · rw [hdb]
      exact (hs i).sameChild hp hsame

theorem sound_step {cfg : Config ι} {s t : State ι} {l : Label ι} (hs : Sound cfg s)
    (hscope : InScope cfg s l) (hlost : NothingLost cfg s l) (h : step cfg s l = some t) :
    Sound cfg t := by
  rcases step_cases h with ⟨c, jobs, rfl, hc, rfl⟩ | ⟨i, a, errors, rfl, hp, rfl⟩ |
    ⟨i, reapOnly, w, rfl, hp, rfl⟩ | ⟨i, a, reapOnly, errors, rfl, hp, rfl⟩ | ⟨i, rfl, rfl⟩ |
    ⟨i, started, rfl, hp, rfl⟩
  · -- a client
    intro j
    exact (hs j).transfer fun cid jid hr => sameRunning_runs (Client.sameRunning hscope hc) hr
  · -- an attempt of `start_jobs`
    have hphase : ∀ reapOnly' errors', Phase.after (cfg.retries i) errors .starting
        (startAttempt cfg s i a).2 ≠ .reaping reapOnly' errors' := by
      intro reapOnly' errors'
      unfold Phase.after
      split
      · simp
      · split <;> simp
    cases hc : startCommits cfg s i a with
    | true =>
      obtain ⟨howns, hframe⟩ := startJobs_owns (startAttempt_committed hc) (hs i).owns
      exact hs.step_of hframe (SoundAt.of_owns howns hphase)
    | false =>
      obtain ⟨hdb, hpriv⟩ := startAttempt_rolledBack hc
      have hlaunch := hlost.1 hc
      have hown : (startAttempt cfg s i a).1.priv = (s.feeder i).own := by
        rcases hpriv with hpriv | hpriv
        · exact hpriv
        · rw [hpriv] at hlaunch ⊢
          obtain ⟨new, hnew, hnil⟩ := startJobs_launches
            (show startJobs (cfg.host i) (cfg.maxFeed i) a.script s.jobs (s.feeder i).own
              = ((_, _), _) from rfl)
          rw [hlaunch] at hnew
          exact (hnil (by simpa using hnew)).1
      refine hs.step_of ?_ (SoundAt.of_owns ?_ hphase)
      · rw [hdb]
        exact Frame.refl _ _
      · rw [hdb, hown]
        exact (hs i).owns
  · -- `waitpid2`
    refine hs.step_of (Frame.refl _ _) ?_
    unfold takeChild
    cases hl : (s.feeder i).own.children.lookup w.cid with
    | none => exact SoundAt.of_owns (hs i).owns (fun _ _ => by simp)
    | some child =>
      obtain ⟨howns, hchild⟩ := (hs i).owns.take hl
      exact ⟨howns, fun _ _ _ => ⟨⟨w, child⟩, rfl, ⟨w.cid, hchild, Or.inl rfl⟩, by simp⟩⟩
  · -- an attempt of `reap_jobs`
    exact sound_reap hs hp hscope hlost
  · -- a crash
    exact hs.step_of (Frame.refl _ _) (SoundAt.of_owns (hs i).owns (fun _ _ => by simp))
  · -- a restart: only rows of this host are buried
    exact hs.step_of (fillMorgue_frame _ hlost.2)
      (SoundAt.of_owns (fun cid job hl => by cases hl) (fun _ _ => by simp))

theorem sound_of_reach {cfg : Config ι} {s : State ι}
    (h : Reach Initial (step cfg) (fun s l => InScope cfg s l ∧ NothingLost cfg s l) s) :
    Sound cfg s := by
  refine Reach.invariant (I := Sound cfg) ?_ ?_ h
  · intro s h0 i
    rw [h0.1 i]
    exact SoundAt.of_owns (fun cid job hl => by cases hl) (fun _ _ => by simp)
  · exact fun s l t hs hg hst => sound_step hs hg.1 hg.2 hst

/-- A queue with two pending jobs. -/
def twoPending : State Unit where
  jobs := ⟨[⟨1, some "0", some "pending", some "2005-07-01", none, none, none, some "node1", none,
      some "stdin/1", none, none, some "data/1", none, none, none, none, some "make"⟩,
    ⟨2, some "0", some "pending", some "2005-07-01", none, none, none, some "node1", none,
      some "stdin/2", none, none, some "data/2", none, none, none, none, some "make test"⟩],
    by decide⟩

/-- Both jobs are started; both children are reaped by one `reap_jobs`. -/
def startBoth : List (Label Unit) :=
  [.start () { script := [{ pid := 100, now := "2005-07-02" }, { pid := 101, now := "2005-07-02" }] },
   .wait () false ⟨100, some 0, "2005-07-03", "86400.0"⟩]

/-- One attempt that reaps both and returns. -/
def reapBoth : Attempt (List Turn) :=
  { script := [{ wait := .child ⟨101, some 1, "2005-07-03", "86400.0"⟩ }, {}] }

/-- The same attempt, but its commit raises. -/
def reapBothFails : Attempt (List Turn) := { reapBoth with faults := { commit := true } }

end RubyQueue.System
