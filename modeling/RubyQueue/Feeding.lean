/-
  The loop of `feed`: does a queue come to its end?

  Each turn of the loop starts what the feeder may start and, when it has a child, waits for one and
  records it.  What is left to do for a feeder, its WORK, is the jobs that wait for it and the
  children it has.  A launch moves a job from the one to the other, a recorded completion takes one
  away, and what other feeders do in between adds nothing.

  * `Onward`                — what a step of any feeder does to the work of one, and to the jobs;
  * `turn_work`             — a turn of the loop leaves less work, unless none is left;
  * `feed_works_off_queue`  — so as many turns as there is work are enough, and a turn can always go
                              on.

  Clients, crashes and transactions that do not commit are left out here, for every feeder: a client may
  add work at any time, and a feeder that comes back may bury jobs that wait again then.
-/
import Mathlib.Data.Fintype.EquivFin
import RubyQueue.Backlog
import RubyQueue.Capacity

namespace RubyQueue.System

open RubyQueue.JobQueue RubyQueue.Qdb RubyQueue.Feeder RubyQueue.Run RubyQueue.Backlog

/-! ## The jobs that wait, through a block -/

section Block

variable {db db' : Jobs} {h k : Hostname} {maxFeed : Int} {o o' : Own} {job : Row}

/-- The number of jobs the feeder of `h` may be given. -/
def waiting (h : Hostname) (db : Jobs) : Nat := (backlog h db).length

theorem waiting_eq (h : Hostname) (db : Jobs) :
    waiting h db = (db.rows.filter (available h)).length := by
  rw [waiting, backlog, List.length_insertionSort]

theorem waiting_eq_zero : waiting h db = 0 ↔ backlog h db = [] := List.length_eq_zero_iff

/-- A row that becomes available to nobody. -/
theorem waiting_update_le {p : Row → Bool} {f : Row → Row}
    (hf : ∀ r, p r = true → available k (setWhere p f r) = false) :
    waiting k (db.update p f) ≤ waiting k db := by
  rw [waiting_eq, waiting_eq]
  show ((db.rows.map (setWhere p f)).filter (available k)).length ≤ _
  rw [filter_setWhere fun r _ hr => hf r hr]
  exact List.length_filter_le _ _

theorem waiting_launch_le (e : Fork) :
    waiting k (jobisrunning (launched h e job) db) ≤ waiting k db := by
  refine waiting_update_le fun r hr => available_running ?_
  simp only [setWhere, hr, if_true]
  rfl

/-- The feeder that launches a job has one less waiting. -/
theorem waiting_launch_lt (hjob : getjob h db = some job) (e : Fork) :
    waiting h (jobisrunning (launched h e job) db) < waiting h db := by
  have hmem : job ∈ db.rows.filter (available h) := by
    refine (List.mem_insertionSort orderedBefore).mp (List.mem_of_mem_head? (?_ : _ = some job))
    exact hjob
  rw [waiting_eq, waiting_eq, available_launch]
  exact List.length_filter_lt_length_iff_exists.mpr ⟨job, hmem, by simp⟩

theorem waiting_jobisdone_le (d : Reaped) : waiting k (jobisdone d.job db) ≤ waiting k db := by
  refine waiting_update_le fun r hr => ?_
  have hstate : (setWhere (fun r => r.jid == d.job.jid) (fun r : Row =>
      { r with state := spliced d.job.state, exitStatus := spliced d.job.exitStatus,
               finished := spliced d.job.finished, elapsed := spliced d.job.elapsed }) r).state
      = some "finished" := by
    simp only [setWhere, hr, if_true]
    rfl
  rw [available, Bool.and_eq_false_iff]
  left
  rw [← Bool.not_eq_true, eligible_iff, hstate]
  simp

/-- A job that has not been lost: it waits for the feeder of `h`, it runs, or it has finished. -/
def Underway (h : Hostname) (jid : Nat) (db : Jobs) : Prop :=
  ∃ r ∈ db, r.jid = jid ∧
    (available h r = true ∨ r.state = some "running" ∨ r.state = some "finished")

theorem Underway.launch {jid : Nat} (hu : Underway k jid db) (e : Fork) :
    Underway k jid (jobisrunning (launched h e job) db) := by
  obtain ⟨r, hr, hjid, hstate⟩ := hu
  by_cases heq : r.jid = job.jid
  · exact ⟨_, Jobs.mem_update_jid.mpr (Or.inr ⟨r, hr, heq, rfl⟩), hjid, Or.inr (Or.inl rfl)⟩
  · exact ⟨r, Jobs.mem_update_jid.mpr (Or.inl ⟨hr, heq⟩), hjid, hstate⟩

theorem Underway.jobisdone {jid : Nat} (hu : Underway k jid db) (d : Reaped) :
    Underway k jid (JobQueue.jobisdone d.job db) := by
  obtain ⟨r, hr, hjid, hstate⟩ := hu
  by_cases heq : r.jid = d.job.jid
  · exact ⟨_, Jobs.mem_update_jid.mpr (Or.inr ⟨r, hr, heq, rfl⟩), hjid, Or.inr (Or.inr rfl)⟩
  · exact ⟨r, Jobs.mem_update_jid.mpr (Or.inl ⟨hr, heq⟩), hjid, hstate⟩

/-- What is left to do on host `h` with these children. -/
def load (h : Hostname) (db : Jobs) (o : Own) : Nat := waiting h db + o.children.entries.length

/-- A launch turns a waiting job into a child. -/
theorem load_launch_le (hjob : getjob h db = some job) (e : Fork) :
    load h (jobisrunning (launched h e job) db) (o.launch h e job) ≤ load h db o := by
  have hlt := waiting_launch_lt hjob e
  have hle := length_insert_le o.children e.pid (launched h e job)
  have hlen : (o.launch h e job).children.entries.length
      = (o.children.insert e.pid (launched h e job)).entries.length := rfl
  unfold load
  omega

/-- Recording a child takes it away. -/
theorem load_jobisdone_lt {c : Nat} {d : Reaped} (hc : c ∈ o.children) :
    load h (jobisdone d.job db) (deleteChild (some c) o) < load h db o := by
  have hle : waiting h (jobisdone d.job db) ≤ waiting h db := waiting_jobisdone_le d
  have hlen : (deleteChild (some c) o).children.entries.length + 1 = o.children.entries.length := by
    show (o.children.erase c).entries.length + 1 = _
    have hpos : 0 < o.children.keys.length := List.length_pos_of_mem hc
    rw [length_entries, length_entries, AList.keys_erase, List.length_erase_of_mem hc]
    omega
  unfold load
  omega

/-- What one block of a feeder does, seen from any host. -/
structure Serves (k : Hostname) (db db' : Jobs) : Prop where
  waiting : waiting k db' ≤ waiting k db
  underway : ∀ jid, Underway k jid db → Underway k jid db'

theorem Serves.refl (k : Hostname) (db : Jobs) : Serves k db db := ⟨Nat.le_refl _, fun _ h => h⟩

theorem Serves.trans {db'' : Jobs} (h₁ : Serves k db db') (h₂ : Serves k db' db'') :
    Serves k db db'' :=
  ⟨h₂.waiting.trans h₁.waiting, fun jid hu => h₂.underway jid (h₁.underway jid hu)⟩

theorem Serves.launch (hs : Serves k db db') (e : Fork) :
    Serves k db (jobisrunning (launched h e job) db') :=
  hs.trans ⟨waiting_launch_le e, fun _ hu => hu.launch e⟩

theorem Serves.jobisdone (hs : Serves k db db') (d : Reaped) :
    Serves k db (JobQueue.jobisdone d.job db') :=
  hs.trans ⟨waiting_jobisdone_le d, fun _ hu => hu.jobisdone d⟩

/-- **`start_jobs`** serves every host, and adds nothing to what is left for its own. -/
theorem startJobs_serves {script : List Fork}
    (hr : startJobs h maxFeed script db o = ((db', o'), none)) :
    (∀ k, Serves k db db') ∧ load h db' o' ≤ load h db o := by
  refine startJobs_rule
    (I := fun jobs o₁ => (∀ k, Serves k db jobs) ∧ load h jobs o₁ ≤ load h db o) ?_ hr
    ⟨fun k => .refl k db, Nat.le_refl _⟩
  rintro jobs o₁ job e ⟨hserves, hload⟩ - hjob
  exact ⟨fun k => (hserves k).launch e, (load_launch_le hjob e).trans hload⟩

/-- It stops when the feeder is busy or nothing waits. -/
theorem startJobs_stops : ∀ {script : List Fork} {db : Jobs} {o : Own},
    startJobs h maxFeed script db o = ((db', o'), none) →
    busy maxFeed o' = true ∨ waiting h db' = 0 := by
  have hnone : ∀ {db : Jobs}, getjob h db = none → waiting h db = 0 := fun hj =>
    waiting_eq_zero.mpr (List.head?_eq_none_iff.mp ((getjob_eq_head h _).symm.trans hj))
  intro script
  induction script with
  | nil =>
    intro db o hr
    rw [startJobs] at hr
    split at hr
    · rename_i hbusy
      cases hr
      exact Or.inl hbusy
    split at hr
    · rename_i hj
      cases hr
      exact Or.inr (hnone hj)
    · cases hr
  | cons e script ih =>
    intro db o hr
    rw [startJobs] at hr
    split at hr
    · rename_i hbusy
      cases hr
      exact Or.inl hbusy
    split at hr
    · rename_i hj
      cases hr
      exact Or.inr (hnone hj)
    rename_i job _
    simp only at hr
    rcases startJob_cases h job e db o with ⟨o₁, ho₁, -⟩ | hok
    · rw [ho₁] at hr
      cases hr
    · rw [hok] at hr
      exact ih hr

/-- **The block of `reap_jobs`** serves every host, and leaves less to do for its own. -/
theorem reapLoop_serves {reapOnly : Bool} {turns : List Turn} {loopno : Nat} {v v' : Vars}
    (hr : reapLoop h maxFeed reapOnly turns loopno db (o, v) = ((db', (o', v')), none))
    (hcur : ∀ d, v.job = some d → InChildren o v.cid d) :
    (∀ k, Serves k db db') ∧ load h db' o' < load h db o := by
  have hrun : (∀ k, Serves k db db') ∧ load h db' o' + v'.reaped.length
      ≤ load h db o + v.reaped.length := by
    refine reapLoop_rule
      (I := fun jobs o₁ l => (∀ k, Serves k db jobs) ∧
        load h jobs o₁ + l.length ≤ load h db o + v.reaped.length)
      (C := fun _ o₁ cid d => InChildren o₁ cid d) ?_ ?_ ?_ hr
      ⟨fun k => .refl k db, Nat.le_refl _⟩ hcur
    · rintro jobs o₁ cid l d ⟨hserves, hload⟩ ⟨c, job, rfl, hl, -⟩
      have hmem : c ∈ o₁.children := AList.lookup_isSome.mp (by rw [hl]; rfl)
      have hlt : load h (JobQueue.jobisdone d.job jobs) (deleteChild (some c) o₁)
          < load h jobs o₁ := load_jobisdone_lt hmem
      refine ⟨fun k => (hserves k).jobisdone d, ?_⟩
      rw [List.length_append, List.length_singleton]
      omega
    · rintro jobs o₁ l job e ⟨hserves, hload⟩ - hjob
      have hle := load_launch_le (o := o₁) hjob e
      exact ⟨fun k => (hserves k).launch e, by omega⟩
    · rintro jobs o₁ l w child ⟨hserves, hload⟩ hl
      have hmem : w.cid ∈ o₁.children := AList.lookup_isSome.mp (by rw [hl]; rfl)
      refine ⟨⟨hserves, ?_⟩, w.cid, finishJob w child, rfl, AList.lookup_insert _, rfl⟩
      unfold load at hload ⊢
      rwa [length_insert_of_mem _ hmem]
  obtain ⟨d, rest, -, hreaped⟩ := reapLoop_reaped hr
  refine ⟨hrun.1, ?_⟩
  have hlen := hrun.2
  rw [hreaped, List.length_append, List.length_cons] at hlen
  omega

end Block

/-! ## The loop -/

variable {ι : Type} [DecidableEq ι]

/-- A step of a feeder that goes as it should: its transaction commits at its first attempt, no pid
    of an unreaped child is handed out again, and `waitpid2` returns a child. -/
def smooth (cfg : Config ι) (s : State ι) : Label ι → Bool
  | .start i a => startCommits cfg s i a && (startAttempt cfg s i a).2.isNone &&
      decide (∀ l ∈ (startAttempt cfg s i a).1.priv.launches.drop (s.feeder i).own.launches.length,
        l.reused = false)
  | .wait i _ w => decide (w.cid ∈ (s.feeder i).own.children)
  | .reap i a =>
    match (s.feeder i).phase with
    | .reaping reapOnly _ => reapCommits cfg s i reapOnly a &&
        (reapAttempt cfg s i reapOnly a).2.isNone &&
        decide (∀ l ∈ (reapAttempt cfg s i reapOnly a).1.priv.1.launches.drop
          (s.feeder i).own.launches.length, l.reused = false)
    | _ => false
  | _ => false

/-- Whose step it is. -/
def Label.feeder : Label ι → Option ι
  | .start i _ => some i
  | .wait i _ _ => some i
  | .reap i _ => some i
  | .crash i => some i
  | .restart i _ => some i
  | .client _ => none

/-- A smooth step. -/
def smoothStep (cfg : Config ι) : State ι → Label ι → Option (State ι) :=
  checked (step cfg) (smooth cfg)

/-- Smooth steps of the feeders other than `i`. -/
def othersDo (cfg : Config ι) (i : ι) : List (Label ι) → State ι → Option (State ι) :=
  exec (checked (smoothStep cfg) fun _ l => decide (l.feeder ≠ some i))

/-- What the environment decides in one turn of the loop of a feeder: what the others do before each
    of its operations, and how this goes.  `polls` are the calls of `start_jobs` while no child
    ends. -/
structure Round (ι : Type) where
  start : List (Label ι) × Attempt (List Fork)
  polls : List (List (Label ι) × Attempt (List Fork)) := []
  wait : List (Label ι) × Waited
  reap : List (Label ι) × Attempt (List Turn)

/-- The others, and then the feeder. -/
def goOn (cfg : Config ι) (i : ι) (others : List (Label ι)) (l : Label ι) (s : State ι) :
    Option (State ι) :=
  (othersDo cfg i others s).bind fun s => smoothStep cfg s l

/-- The busywait loop of `reap_jobs`. -/
def busywait (cfg : Config ι) (i : ι) :
    List (List (Label ι) × Attempt (List Fork)) → State ι → Option (State ι)
  | [], s => some s
  | p :: polls, s =>
    if busy (cfg.maxFeed i) (s.feeder i).own then some s
    else (goOn cfg i p.1 (.start i p.2) s).bind (busywait cfg i polls)

/-- `start_jobs unless busy?`. -/
def startUnlessBusy (cfg : Config ι) (i : ι) (x : Round ι) (s : State ι) : Option (State ι) :=
  if busy (cfg.maxFeed i) (s.feeder i).own then some s
  else goOn cfg i x.start.1 (.start i x.start.2) s

/-- `if nothing_running? … relax else … reap_jobs`. -/
def relaxOrReap (cfg : Config ι) (i : ι) (x : Round ι) (s : State ι) : Option (State ι) :=
  if (s.feeder i).own.children.entries.length = 0 then some s
  else
    ((busywait cfg i x.polls s).bind (goOn cfg i x.wait.1 (.wait i false x.wait.2))).bind
      (goOn cfg i x.reap.1 (.reap i x.reap.2))

/-- One turn of the loop of `Feeder#feed`, when no signal has come. -/
def turn (cfg : Config ι) (i : ι) (s : State ι) (x : Round ι) : Option (State ι) :=
  (startUnlessBusy cfg i x s).bind (relaxOrReap cfg i x)

/-! ## What a step leaves to do -/

/-- What is left to do for feeder `i`. -/
def work (cfg : Config ι) (i : ι) (s : State ι) : Nat := load (cfg.host i) s.jobs (s.feeder i).own

/-- From `s` on to `t`: the accounts are in order, no job of host `i` has been lost, and nothing has
    come to be done. -/
structure Onward (cfg : Config ι) (i : ι) (s t : State ι) : Prop where
  inOrder : InOrder cfg t
  underway : ∀ jid, Underway (cfg.host i) jid s.jobs → Underway (cfg.host i) jid t.jobs
  work : work cfg i t ≤ work cfg i s

omit [DecidableEq ι] in
theorem Onward.refl {cfg : Config ι} {i : ι} {s : State ι} (hs : InOrder cfg s) :
    Onward cfg i s s :=
  ⟨hs, fun _ h => h, Nat.le_refl _⟩

omit [DecidableEq ι] in
theorem Onward.trans {cfg : Config ι} {i : ι} {s t u : State ι} (h₁ : Onward cfg i s t)
    (h₂ : Onward cfg i t u) : Onward cfg i s u :=
  ⟨h₂.inOrder, fun jid hu => h₂.underway jid (h₁.underway jid hu), h₂.work.trans h₁.work⟩

section Step

variable {cfg : Config ι} {i : ι} {s t : State ι} {l : Label ι}

omit [DecidableEq ι] in
/-- A smooth step is one of a feeder at its first try. -/
theorem firstTry_of_smooth (h : smooth cfg s l = true) : FirstTry cfg s l ∧ PlainTouch l := by
  cases l with
  | client c => cases h
  | start j a =>
    simp only [smooth, Bool.and_eq_true, decide_eq_true_eq, Option.isNone_iff_eq_none] at h
    exact ⟨⟨h.1.1, h.1.2, h.2⟩, trivial⟩
  | wait j reapOnly w =>
    have hmem : w.cid ∈ (s.feeder j).own.children := of_decide_eq_true h
    exact ⟨hmem, trivial⟩
  | reap j a =>
    refine ⟨fun reapOnly errors hp => ?_, trivial⟩
    simp only [smooth, hp, Bool.and_eq_true, decide_eq_true_eq, Option.isNone_iff_eq_none] at h
    exact ⟨h.1.1, h.1.2, h.2⟩
  | crash j => cases h
  | restart j started => cases h

theorem smoothStep_some (h : smoothStep cfg s l = some t) :
    smooth cfg s l = true ∧ step cfg s l = some t := by
  simpa [smoothStep, checked] using h

/-- Where only feeder `j` moves, the load of the others is at most what it was. -/
theorem work_le_of_serves {j : ι} {m : Member} {jobs : Jobs} {history : List Event}
    (hserves : Serves (cfg.host i) s.jobs jobs)
    (hload : load (cfg.host j) jobs m.own ≤ load (cfg.host j) s.jobs (s.feeder j).own) :
    work cfg i { jobs := jobs, feeder := Function.update s.feeder j m, history := history }
      ≤ work cfg i s := by
  by_cases hij : i = j
  · subst hij
    show load _ jobs (Function.update s.feeder i m i).own ≤ _
    rw [Function.update_self]
    exact hload
  · show load _ jobs (Function.update s.feeder j m i).own ≤ _
    rw [Function.update_of_ne hij]
    exact Nat.add_le_add_right hserves.waiting _

/-- **A smooth step**, of this feeder or of another one. -/
theorem onward_step (i : ι) (hs : InOrder cfg s) (h : smoothStep cfg s l = some t) :
    Onward cfg i s t := by
  obtain ⟨hsmooth, hstep⟩ := smoothStep_some h
  obtain ⟨hg, ht⟩ := firstTry_of_smooth hsmooth
  have hnext : InOrder cfg t := inOrder_step hs hg ht hstep
  rcases step_cases hstep with ⟨c, jobs, rfl, -, rfl⟩ | ⟨j, a, errors, rfl, -, rfl⟩ |
    ⟨j, reapOnly, w, rfl, -, rfl⟩ | ⟨j, a, reapOnly, errors, rfl, hp, rfl⟩ | ⟨j, rfl, -⟩ |
    ⟨j, started, rfl, -, -⟩
  · cases hsmooth
  · obtain ⟨hserves, hload⟩ := startJobs_serves (startAttempt_committed hg.1)
    exact ⟨hnext, (hserves (cfg.host i)).underway, work_le_of_serves (hserves _) hload⟩
  · -- taking a child replaces its entry
    obtain ⟨child, hl⟩ := Option.isSome_iff_exists.mp (AList.lookup_isSome.mpr hg)
    refine ⟨hnext, fun _ h => h, work_le_of_serves (Serves.refl _ _) ?_⟩
    simp only [takeChild, hl]
    unfold load
    rw [length_insert_of_mem _ hg]
  · obtain ⟨hcommits, -, -⟩ := hg reapOnly errors hp
    obtain ⟨hserves, hload⟩ := reapLoop_serves (reapAttempt_committed hcommits)
      (hs.current j reapOnly errors hp)
    exact ⟨hnext, (hserves (cfg.host i)).underway, work_le_of_serves (hserves _) hload.le⟩
  · cases hsmooth
  · cases hsmooth

/-- `start_jobs` of the feeder itself: back in its loop it is busy, or nothing waits for it. -/
theorem start_stops {a : Attempt (List Fork)} (h : smoothStep cfg s (.start i a) = some t) :
    busy (cfg.maxFeed i) (t.feeder i).own = true ∨ waiting (cfg.host i) t.jobs = 0 := by
  obtain ⟨hsmooth, hstep⟩ := smoothStep_some h
  obtain ⟨⟨hcommits, -, -⟩, -⟩ := firstTry_of_smooth hsmooth
  have hstops := startJobs_stops (startAttempt_committed hcommits)
  rcases step_cases hstep with ⟨c, jobs, hl, -, rfl⟩ | ⟨j, b, errors, hl, -, rfl⟩ |
    ⟨j, reapOnly, w, hl, -, rfl⟩ | ⟨j, b, reapOnly, errors, hl, hp, rfl⟩ | ⟨j, hl, -⟩ |
    ⟨j, started, hl, -, -⟩
  all_goals cases hl
  simp only [State.start, Function.update_self]
  exact hstops

/-- `reap_jobs` of the feeder itself takes work away. -/
theorem reap_work_lt {a : Attempt (List Turn)} (hs : InOrder cfg s)
    (h : smoothStep cfg s (.reap i a) = some t) : work cfg i t < work cfg i s := by
  obtain ⟨hsmooth, hstep⟩ := smoothStep_some h
  obtain ⟨hg, -⟩ := firstTry_of_smooth hsmooth
  rcases step_cases hstep with ⟨c, jobs, hl, -, rfl⟩ | ⟨j, b, errors, hl, -, rfl⟩ |
    ⟨j, reapOnly, w, hl, -, rfl⟩ | ⟨j, b, reapOnly, errors, hl, hp, rfl⟩ | ⟨j, hl, -⟩ |
    ⟨j, started, hl, -, -⟩
  all_goals cases hl
  obtain ⟨hcommits, -, -⟩ := hg reapOnly errors hp
  obtain ⟨-, hload⟩ := reapLoop_serves (reapAttempt_committed hcommits)
    (hs.current i reapOnly errors hp)
  unfold work State.reap
  simp only [Function.update_self]
  exact hload

/-- A step of another feeder leaves this one alone. -/
theorem feeder_of_other (h : step cfg s l = some t) (hi : l.feeder ≠ some i) :
    t.feeder i = s.feeder i := by
  rcases step_cases h with ⟨c, jobs, rfl, -, rfl⟩ | ⟨j, a, errors, rfl, -, rfl⟩ |
    ⟨j, reapOnly, w, rfl, -, rfl⟩ | ⟨j, a, reapOnly, errors, rfl, -, rfl⟩ | ⟨j, rfl, rfl⟩ |
    ⟨j, started, rfl, -, rfl⟩
  · rfl
  all_goals exact Function.update_of_ne (fun heq => hi (congrArg some heq.symm)) _ _

end Step

/-! ## A turn of the loop -/

section Turn

variable {cfg : Config ι} {i : ι} {s t : State ι} {x : Round ι}

/-- **What the others do** adds nothing, and leaves the feeder as it is. -/
theorem onward_others : ∀ {others : List (Label ι)} {s : State ι}, InOrder cfg s →
    othersDo cfg i others s = some t → Onward cfg i s t ∧ t.feeder i = s.feeder i
  | [], s, hs, h => by
    obtain rfl : s = t := Option.some.inj h
    exact ⟨.refl hs, rfl⟩
  | l :: others, s, hs, h => by
    obtain ⟨u, hu, hut⟩ := Option.bind_eq_some_iff.mp h
    obtain ⟨hother, hstep⟩ : l.feeder ≠ some i ∧ smoothStep cfg s l = some u := by
      simpa [checked] using hu
    have hone := onward_step i hs hstep
    obtain ⟨hrest, hsame⟩ := onward_others hone.inOrder hut
    exact ⟨hone.trans hrest, hsame.trans (feeder_of_other (smoothStep_some hstep).2 hother)⟩

theorem goOn_some {others : List (Label ι)} {l : Label ι} (hs : InOrder cfg s)
    (h : goOn cfg i others l s = some t) :
    ∃ u, Onward cfg i s u ∧ u.feeder i = s.feeder i ∧ smoothStep cfg u l = some t := by
  obtain ⟨u, hu, hut⟩ := Option.bind_eq_some_iff.mp h
  obtain ⟨hon, hsame⟩ := onward_others hs hu
  exact ⟨u, hon, hsame, hut⟩

theorem onward_goOn {others : List (Label ι)} {l : Label ι} (hs : InOrder cfg s)
    (h : goOn cfg i others l s = some t) : Onward cfg i s t := by
  obtain ⟨u, hu, -, hut⟩ := goOn_some hs h
  exact hu.trans (onward_step i hu.inOrder hut)

theorem onward_busywait : ∀ {polls : List (List (Label ι) × Attempt (List Fork))} {s : State ι},
    InOrder cfg s → busywait cfg i polls s = some t → Onward cfg i s t
  | [], s, hs, h => by
    obtain rfl : s = t := Option.some.inj h
    exact .refl hs
  | p :: polls, s, hs, h => by
    unfold busywait at h
    split at h
    · obtain rfl := Option.some.inj h
      exact .refl hs
    · obtain ⟨u, hu, hut⟩ := Option.bind_eq_some_iff.mp h
      have hone := onward_goOn hs hu
      exact hone.trans (onward_busywait hone.inOrder hut)

/-- After `start_jobs unless busy?` the feeder is busy, or nothing waits for it. -/
theorem startUnlessBusy_some (hs : InOrder cfg s) (h : startUnlessBusy cfg i x s = some t) :
    Onward cfg i s t ∧
      (busy (cfg.maxFeed i) (t.feeder i).own = true ∨ waiting (cfg.host i) t.jobs = 0) := by
  unfold startUnlessBusy at h
  split at h
  · rename_i hbusy
    obtain rfl := Option.some.inj h
    exact ⟨.refl hs, Or.inl hbusy⟩
  · obtain ⟨u, -, -, hut⟩ := goOn_some hs h
    exact ⟨onward_goOn hs h, start_stops hut⟩

/-- With a child, the other half of the turn takes work away. -/
theorem relaxOrReap_some (hs : InOrder cfg s) (h : relaxOrReap cfg i x s = some t) :
    Onward cfg i s t ∧ (((s.feeder i).own.children.entries.length = 0 ∧ t = s) ∨
      work cfg i t < work cfg i s) := by
  unfold relaxOrReap at h
  split at h
  · rename_i hnone
    obtain rfl := Option.some.inj h
    exact ⟨.refl hs, Or.inl ⟨hnone, rfl⟩⟩
  · obtain ⟨u, hu, hut⟩ := Option.bind_eq_some_iff.mp h
    obtain ⟨v, hv, hvu⟩ := Option.bind_eq_some_iff.mp hu
    have hpolls := onward_busywait hs hv
    have hwait := hpolls.trans (onward_goOn hpolls.inOrder hvu)
    obtain ⟨w, hw, -, hwt⟩ := goOn_some hwait.inOrder hut
    have hreap := hwait.trans hw
    exact ⟨hreap.trans (onward_step i hreap.inOrder hwt),
      Or.inr (lt_of_lt_of_le (reap_work_lt hreap.inOrder hwt) hreap.work)⟩

/-- **A turn of the loop** leaves less to do, unless nothing is left. -/
theorem turn_work (hmax : 1 ≤ cfg.maxFeed i) (hs : InOrder cfg s) (h : turn cfg i s x = some t) :
    Onward cfg i s t ∧ (work cfg i t = 0 ∨ work cfg i t < work cfg i s) := by
  obtain ⟨u, hu, hut⟩ := Option.bind_eq_some_iff.mp h
  obtain ⟨hstart, hstop⟩ := startUnlessBusy_some hs hu
  obtain ⟨hrest, hcase⟩ := relaxOrReap_some hstart.inOrder hut
  refine ⟨hstart.trans hrest, ?_⟩
  rcases hcase with ⟨hnone, rfl⟩ | hlt
  · left
    -- without a child it is not busy
    have hidle : busy (cfg.maxFeed i) (t.feeder i).own ≠ true := by
      intro hbusy
      have hle : cfg.maxFeed i ≤ ((t.feeder i).own.children.entries.length : Nat) :=
        of_decide_eq_true hbusy
      omega
    have hwaiting := hstop.resolve_left hidle
    unfold work load
    omega
  · exact Or.inr (lt_of_lt_of_le hlt hstart.work)

/-- Any number of turns, by induction on it. -/
theorem turns_work (hmax : 1 ≤ cfg.maxFeed i) : ∀ {rounds : List (Round ι)} {s : State ι},
    InOrder cfg s → exec (turn cfg i) rounds s = some t →
    Onward cfg i s t ∧ (work cfg i s ≤ rounds.length → work cfg i t = 0)
  | [], s, hs, h => by
    obtain rfl : s = t := Option.some.inj h
    exact ⟨.refl hs, fun hn => Nat.le_zero.mp hn⟩
  | x :: rounds, s, hs, h => by
    obtain ⟨u, hu, hut⟩ := Option.bind_eq_some_iff.mp h
    obtain ⟨hone, hless⟩ := turn_work hmax hs hu
    obtain ⟨hrest, hend⟩ := turns_work hmax hone.inOrder hut
    refine ⟨hone.trans hrest, fun hn => hend ?_⟩
    rw [List.length_cons] at hn
    omega

end Turn

/-! ## A turn can go on -/

section Goes

/-- No row's command is NULL. -/
def HasCommands (db : Jobs) : Prop := ∀ r ∈ db, r.command ≠ none

theorem HasCommands.update {db : Jobs} (hc : HasCommands db) {p : Row → Bool} {f : Row → Row}
    (hf : ∀ r, (f r).command = r.command) : HasCommands (db.update p f) := by
  intro r hr
  obtain ⟨r', hr', rfl⟩ := Jobs.mem_update.mp hr
  unfold setWhere
  split
  · exact fun hnone => hc r' hr' ((hf r').symm.trans hnone)
  · exact hc r' hr'

/-- A job with a command is started, when nothing raises. -/
theorem startJob_ok {h : Hostname} {job : Row} (hc : job.command ≠ none) (e : Fork)
    (he : e.fault = none) (db : Jobs) (o : Own) :
    startJob h job e db o = ((jobisrunning (launched h e job) db, o.launch h e job), none) := by
  have hrun : ¬ (e.fault = some .run ∨ (prepared h e.now job).command = none) := by
    rintro (hf | hn)
    · rw [he] at hf
      cases hf
    · exact hc hn
  unfold startJob
  rw [if_neg (by rw [he]; decide), if_neg hrun, if_neg (by rw [he]; decide)]
  rfl

/-- A pid that no child has. -/
theorem exists_fresh (o : Own) : ∃ pid, pid ∉ o.children := by
  obtain ⟨pid, hpid⟩ := Infinite.exists_notMem_finset o.children.keys.toFinset
  exact ⟨pid, fun h => hpid (List.mem_toFinset.mpr h)⟩

/-- `start_jobs` can be carried through, with pids that are fresh.  Induction on the number of jobs
    that wait. -/
theorem startJobs_goes (h : Hostname) (maxFeed : Int) : ∀ {n : Nat} (db : Jobs) (o : Own),
    waiting h db ≤ n → HasCommands db →
    ∃ script db' o', startJobs h maxFeed script db o = ((db', o'), none) ∧ HasCommands db' ∧
      ∀ l ∈ o'.launches.drop o.launches.length, l.reused = false := by
  intro n
  induction n with
  | zero =>
    intro db o hn hc
    have hnone : getjob h db = none := by
      rw [getjob_eq_head, waiting_eq_zero.mp (Nat.le_zero.mp hn)]
      rfl
    refine ⟨[], db, o, ?_, hc, by simp⟩
    rw [startJobs, hnone]
    split
    · rfl
    · rfl
  | succ n ih =>
    intro db o hn hc
    by_cases hbusy : busy maxFeed o = true
    · exact ⟨[], db, o, by rw [startJobs, if_pos hbusy], hc, by simp⟩
    cases hjob : getjob h db with
    | none => exact ⟨[], db, o, by rw [startJobs, if_neg hbusy, hjob], hc, by simp⟩
    | some job =>
      obtain ⟨pid, hpid⟩ := exists_fresh o
      have hlt := waiting_launch_lt hjob ⟨pid, "", none⟩
      obtain ⟨script, db', o', hr, hc', hfresh⟩ :=
        ih (jobisrunning (launched h ⟨pid, "", none⟩ job) db) (o.launch h ⟨pid, "", none⟩ job)
          (by omega) (hc.update fun r => rfl)
      refine ⟨⟨pid, "", none⟩ :: script, db', o', ?_, hc', ?_⟩
      · rw [startJobs, if_neg hbusy, hjob]
        simp only [startJob_ok (hc job (getjob_some hjob).1) ⟨pid, "", none⟩ rfl db o]
        exact hr
      · obtain ⟨new, hnew, -⟩ := startJobs_launches hr
        have hlaunches : (o.launch h ⟨pid, "", none⟩ job).launches
            = o.launches ++ [⟨job.jid, pid, false⟩] := by
          show o.launches ++ [⟨job.jid, pid, decide (pid ∈ o.children)⟩] = _
          rw [decide_eq_false hpid]
        rw [hnew, List.drop_left] at hfresh
        rw [hnew, hlaunches, List.append_assoc, List.drop_left]
        intro l hl
        rcases List.mem_append.mp hl with hl | hl
        · rw [List.mem_singleton.mp hl]
        · exact hfresh l hl

/-- An attempt without faults commits what its block returned. -/
theorem attempt_ok {δ π β : Type} {body : Body δ π β} {b : β} {s : Qdb.State δ π} {d : δ} {p : π}
    (h : body b s.db s.priv = ((d, p), none)) :
    (attempt body { script := b } s).1.db = d ∧ (attempt body { script := b } s).1.priv = p ∧
      (attempt body { script := b } s).2 = none := by
  simp [attempt, aquireLock, connect, beginCommit, h]

variable {ι : Type} [DecidableEq ι] (cfg : Config ι) {i : ι} {s : State ι}

/-- `start_jobs` of an idle feeder. -/
theorem start_goes (hidle : (s.feeder i).phase = .idle) (hc : HasCommands s.jobs) :
    ∃ a t, smoothStep cfg s (.start i a) = some t ∧ (t.feeder i).phase = .idle ∧
      HasCommands t.jobs := by
  obtain ⟨script, db', o', hr, hc', hfresh⟩ := startJobs_goes (cfg.host i)
    (cfg.maxFeed i) s.jobs (s.feeder i).own (Nat.le_refl _) hc
  obtain ⟨hdb, hpriv, hnone⟩ : (startAttempt cfg s i { script := script }).1.db = db' ∧
      (startAttempt cfg s i { script := script }).1.priv = o' ∧
      (startAttempt cfg s i { script := script }).2 = none := attempt_ok hr
  have hcommits : startCommits cfg s i { script := script } = true := by
    unfold startCommits
    rw [hr]
    rfl
  have hsmooth : smooth cfg s (.start i { script := script }) = true := by
    show (startCommits cfg s i { script := script } &&
      (startAttempt cfg s i { script := script }).2.isNone && _) = true
    rw [hcommits, hnone, hpriv]
    simpa using hfresh
  refine ⟨{ script := script }, s.start cfg i 0 { script := script }, ?_, ?_, ?_⟩
  · simp [smoothStep, checked, hsmooth, step, hidle]
  · simp only [State.start, Function.update_self, hnone, Phase.after]
  · show HasCommands (startAttempt cfg s i { script := script }).1.db
    rw [hdb]
    exact hc'

/-- `waitpid2` of an idle feeder with a child. -/
theorem wait_goes (hidle : (s.feeder i).phase = .idle)
    (hchild : (s.feeder i).own.children.entries.length ≠ 0) (hc : HasCommands s.jobs) :
    ∃ w t d, smoothStep cfg s (.wait i false w) = some t ∧ (t.feeder i).phase = .reaping false 0 ∧
      (t.feeder i).vars.job = some d ∧ HasCommands t.jobs := by
  obtain ⟨⟨cid, child⟩, he⟩ := List.exists_mem_of_length_pos (Nat.pos_of_ne_zero hchild)
  have hl : (s.feeder i).own.children.lookup cid = some child := AList.mem_lookup_iff.mpr he
  have hmem : cid ∈ (s.feeder i).own.children := AList.lookup_isSome.mp (by rw [hl]; rfl)
  refine ⟨⟨cid, some 0, "", ""⟩, s.wait i false ⟨cid, some 0, "", ""⟩,
    ⟨⟨cid, some 0, "", ""⟩, child⟩, ?_, ?_, ?_, hc⟩
  · simp [smoothStep, checked, smooth, step, hidle, hmem]
  · simp [State.wait, takeChild, hl]
  · simp [State.wait, takeChild, hl]

/-- The block of `reap_jobs` with a child in its hands, when no other one ends. -/
theorem reap_goes {errors : Nat} {d : Reaped} (hp : (s.feeder i).phase = .reaping false errors)
    (hd : (s.feeder i).vars.job = some d) (hc : HasCommands s.jobs) :
    ∃ a t, smoothStep cfg s (.reap i a) = some t ∧ (t.feeder i).phase = .idle ∧
      HasCommands t.jobs := by
  obtain ⟨script, db', o', hr, hc', hfresh⟩ := startJobs_goes (cfg.host i)
    (cfg.maxFeed i) (jobisdone d.job s.jobs) (deleteChild (s.feeder i).vars.cid (s.feeder i).own)
    (Nat.le_refl _) (hc.update fun r => rfl)
  obtain ⟨v', hblock⟩ : ∃ v', reapLoop (cfg.host i) (cfg.maxFeed i) false [{ forks := script }] 0
      s.jobs ((s.feeder i).own, (s.feeder i).vars) = ((db', (o', v')), none) := by
    rw [reapLoop, hd]
    simp only [Bool.false_or, Bool.false_eq_true, if_false, hr]
    split
    · exact ⟨_, rfl⟩
    · exact ⟨_, rfl⟩
  obtain ⟨hdb, hpriv, hnone⟩ :
      (reapAttempt cfg s i false { script := [{ forks := script }] }).1.db = db' ∧
      (reapAttempt cfg s i false { script := [{ forks := script }] }).1.priv = (o', v') ∧
      (reapAttempt cfg s i false { script := [{ forks := script }] }).2 = none := attempt_ok hblock
  have hcommits : reapCommits cfg s i false { script := [{ forks := script }] } = true := by
    unfold reapCommits
    rw [hblock]
    rfl
  have hlaunches : (deleteChild (s.feeder i).vars.cid (s.feeder i).own).launches
      = (s.feeder i).own.launches := by
    cases (s.feeder i).vars.cid with
    | none => rfl
    | some c => rfl
  have hsmooth : smooth cfg s (.reap i { script := [{ forks := script }] }) = true := by
    simp only [smooth, hp, hcommits, hnone, hpriv]
    rw [hlaunches] at hfresh
    simpa using hfresh
  refine ⟨{ script := [{ forks := script }] }, s.reap cfg i false errors
    { script := [{ forks := script }] }, ?_, ?_, ?_⟩
  · simp [smoothStep, checked, hsmooth, step, hp]
  · simp only [State.reap, Function.update_self, hnone, Phase.after]
  · show HasCommands (reapAttempt cfg s i false { script := [{ forks := script }] }).1.db
    rw [hdb]
    exact hc'

/-- With nobody else about, an operation of the feeder is a step. -/
theorem goOn_alone {l : Label ι} : goOn cfg i [] l s = smoothStep cfg s l := rfl

/-- **A turn can go on**: in every idle state there is a turn that goes through. -/
theorem turn_goes (hidle : (s.feeder i).phase = .idle) (hc : HasCommands s.jobs) :
    ∃ x t, turn cfg i s x = some t ∧ (t.feeder i).phase = .idle ∧ HasCommands t.jobs := by
  -- `start_jobs unless busy?`
  obtain ⟨a, u, hu, hidle₁, hc₁⟩ : ∃ a u, (∀ x : Round ι, x.start = ([], a) →
      startUnlessBusy cfg i x s = some u) ∧ (u.feeder i).phase = .idle ∧ HasCommands u.jobs := by
    by_cases hbusy : busy (cfg.maxFeed i) (s.feeder i).own = true
    · exact ⟨{ script := [] }, s, fun x _ => if_pos hbusy, hidle, hc⟩
    · obtain ⟨a, u, hstart, hidle₁, hc₁⟩ := start_goes cfg hidle hc
      refine ⟨a, u, fun x hx => ?_, hidle₁, hc₁⟩
      rw [startUnlessBusy, if_neg hbusy, hx]
      exact hstart
  by_cases hnone : (u.feeder i).own.children.entries.length = 0
  · refine ⟨⟨([], a), [], ([], ⟨0, none, "", ""⟩), ([], { script := [] })⟩, u, ?_, hidle₁, hc₁⟩
    rw [turn, hu _ rfl]
    exact if_pos hnone
  · obtain ⟨w, v, d, hwait, hphase, hd, hc₂⟩ := wait_goes cfg hidle₁ hnone hc₁
    obtain ⟨b, t, hreap, hidle₃, hc₃⟩ := reap_goes cfg hphase hd hc₂
    refine ⟨⟨([], a), [], ([], w), ([], b)⟩, t, ?_, hidle₃, hc₃⟩
    rw [turn, hu _ rfl]
    show relaxOrReap cfg i _ u = some t
    rw [relaxOrReap, if_neg hnone]
    simp only [busywait, goOn_alone, Option.bind_some, hwait, hreap]

theorem turns_go : ∀ (n : Nat) {s : State ι}, (s.feeder i).phase = .idle → HasCommands s.jobs →
    ∃ rounds t, rounds.length = n ∧ exec (turn cfg i) rounds s = some t
  | 0, s, _, _ => ⟨[], s, rfl, rfl⟩
  | n + 1, s, hidle, hc => by
    obtain ⟨x, u, hu, hidle', hc'⟩ := turn_goes cfg hidle hc
    obtain ⟨rounds, t, hn, ht⟩ := turns_go n hidle' hc'
    exact ⟨x :: rounds, t, by rw [List.length_cons, hn], by simp [exec, hu, ht]⟩

end Goes

/-! ## The end -/

section End

variable {ι : Type} [DecidableEq ι]

omit [DecidableEq ι] in
/-- Nothing is left to do for a feeder: each job of its own is over, or another feeder runs it. -/
theorem over_of_work {cfg : Config ι} {i : ι} {s : State ι} (hs : InOrder cfg s)
    (hw : work cfg i s = 0) {jid : Nat} (hu : Underway (cfg.host i) jid s.jobs) :
    ∃ r ∈ s.jobs, r.jid = jid ∧ (r.state = some "finished" ∨
      (r.state = some "running" ∧ ∃ j, j ≠ i ∧ r.runner = some (cfg.host j).name)) := by
  have hzero : waiting (cfg.host i) s.jobs = 0 ∧
      (s.feeder i).own.children.entries.length = 0 := by
    unfold work load at hw
    omega
  obtain ⟨r, hr, hjid, hwaits | hrun | hover⟩ := hu
  · have hmem : r ∈ backlog (cfg.host i) s.jobs := mem_backlog.mpr ⟨hr, hwaits⟩
    rw [waiting_eq_zero.mp hzero.1] at hmem
    cases hmem
  · refine ⟨r, hr, hjid, Or.inr ⟨hrun, ?_⟩⟩
    obtain ⟨j, hhost⟩ := hs.hosted r hr hrun
    refine ⟨j, ?_, hhost⟩
    rintro rfl
    -- it would have an entry
    obtain ⟨cid, job, hl, -⟩ := (hs.accounts j).covers r hr hrun hhost
    have hentry : ⟨cid, job⟩ ∈ (s.feeder j).own.children.entries := AList.mem_lookup_iff.mp hl
    rw [List.length_eq_zero_iff.mp hzero.2] at hentry
    cases hentry
  · exact ⟨r, hr, hjid, Or.inl hover⟩

/-- **A feeder works its queue off.**  From any state of the runs of `running_iff_owned` in which
    feeder `i`, with a `max_feed` of at least 1, is in its loop: turns of its loop can always go on,
    when every job has a command; and once it has made as many turns as there were jobs waiting for
    it and children of its own — the other feeders doing in between what commits at its first
    attempt, without a crash — nothing waits for it, it has no child, and every job that was waiting
    for it or running has finished or is run by another feeder. -/
theorem feed_works_off_queue (cfg : Config ι) (s : State ι)
    (hs : Reach NothingRuns (step cfg) (fun s l => FirstTry cfg s l ∧ PlainTouch l) s) (i : ι)
    (hmax : 1 ≤ cfg.maxFeed i) (hidle : (s.feeder i).phase = .idle)
    (hcommands : ∀ r ∈ s.jobs, r.command ≠ none) :
    (∀ n, ∃ rounds t, rounds.length = n ∧ exec (turn cfg i) rounds s = some t) ∧
    ∀ rounds t, exec (turn cfg i) rounds s = some t →
      (backlog (cfg.host i) s.jobs).length + (s.feeder i).own.children.entries.length
        ≤ rounds.length →
      backlog (cfg.host i) t.jobs = [] ∧ (t.feeder i).own.children.entries = [] ∧
      ∀ r ∈ s.jobs, available (cfg.host i) r = true ∨ r.state = some "running" →
        ∃ r' ∈ t.jobs, r'.jid = r.jid ∧ (r'.state = some "finished" ∨
          (r'.state = some "running" ∧ ∃ j, j ≠ i ∧ r'.runner = some (cfg.host j).name)) := by
  refine ⟨fun n => turns_go cfg n hidle hcommands, fun rounds t ht hn => ?_⟩
  obtain ⟨hon, hend⟩ := turns_work hmax (inOrder_of_reach hs) ht
  have hwork : work cfg i t = 0 := hend hn
  have hzero : waiting (cfg.host i) t.jobs = 0 ∧
      (t.feeder i).own.children.entries.length = 0 := by
    unfold work load at hwork
    omega
  refine ⟨waiting_eq_zero.mp hzero.1, List.length_eq_zero_iff.mp hzero.2, fun r hr hstate => ?_⟩
  refine over_of_work hon.inOrder hwork (hon.underway r.jid ⟨r, hr, rfl, ?_⟩)
  rcases hstate with hwaits | hrun
  · exact Or.inl hwaits
  · exact Or.inr (Or.inl hrun)

end End

/-- A turn in which the child that is started ends. -/
def oneTurn : Round Unit where
  start := ([], { script := [{ pid := 100, now := "2005-07-02" }] })
  wait := ([], ⟨100, some 0, "2005-07-03", "1"⟩)
  reap := ([], { script := [{}] })

set_option maxRecDepth 4000 in
/-- One turn is enough for one job. -/
theorem one_turn_for_one_job : ∃ t, exec (turn oneFeeder ()) [oneTurn] onePending = some t ∧
    backlog node1 t.jobs = [] ∧ ∃ r ∈ t.jobs, r.jid = 1 ∧ r.state = some "finished" := by
  obtain ⟨t, ht, -⟩ : ∃ t, exec (turn oneFeeder ()) [oneTurn] onePending = some t ∧
      decide (t.jobs.rows.length = 1) = true := exists_of_any (by decide)
  have hjob : ∃ r ∈ onePending.jobs, r.jid = 1 ∧ available node1 r = true := by
    show ∃ r ∈ onePending.jobs.rows, r.jid = 1 ∧ available node1 r = true
    decide
  have hstart : NothingRuns onePending := by
    refine ⟨⟨fun _ => rfl, rfl⟩, ?_⟩
    show ∀ r ∈ onePending.jobs.rows, r.state ≠ some "running"
    decide
  have hcommands : ∀ r ∈ onePending.jobs, r.command ≠ none := by
    show ∀ r ∈ onePending.jobs.rows, r.command ≠ none
    decide
  obtain ⟨-, hworked⟩ := feed_works_off_queue oneFeeder onePending (Reach.init hstart) ()
    (by decide) rfl hcommands
  obtain ⟨hempty, -, hover⟩ := hworked [oneTurn] t ht (by decide)
  obtain ⟨r, hr, hjid, hwaits⟩ := hjob
  obtain ⟨r', hr', hjid', hfinished | ⟨-, j, hj, -⟩⟩ := hover r hr (Or.inl hwaits)
  · exact ⟨t, ht, hempty, r', hr', hjid'.trans hjid, hfinished⟩
  · exact absurd rfl hj

end RubyQueue.System
