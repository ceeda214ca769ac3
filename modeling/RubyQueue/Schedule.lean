/-
  The operations of `lib/rq/jobqueue.rb` that feeders run: `getjob`, `jobisrunning`, `jobisdone`,
  `getdeadjobs`, `jobisdead`, and `Feeder#fill_morgue`, which strings the last two together.

  None of the three updates tests the state of the row it changes: what they change is decided by
  the job they are handed.  The vocabulary their callers' invariants are written in is here too:

  * `Runs db h cid jid` — the row of `jid` is running on host `h` with pid `cid`;
  * `Frame h db db'`    — nobody else's running row was touched on the way from `db` to `db'`;
  * `NoNamesake h db`   — nobody else's job runs under a name that SQLite takes for the one of `h`.
-/
import Mathlib.Data.List.Sort
import RubyQueue.JobQueue

namespace RubyQueue.JobQueue

open RubyQueue.Sqlite

/-! ## Hosts -/

/-- A host name, as `Socket::gethostname` returns it.  It has no quote, so it can stand in a
    statement as it is. -/
structure Hostname where
  name : String
  plain : '\'' ∉ name.toList
deriving DecidableEq

theorem Hostname.ext {h k : Hostname} (e : h.name = k.name) : h = k := by
  cases h; cases k; cases e; rfl

/-- A host, for the runs written out below. -/
def node1 : Hostname := ⟨"node1", by decide⟩

/-- `Util::host`: the name up to its first dot. -/
def Hostname.host (h : Hostname) : String := String.ofList (h.name.toList.takeWhile (· != '.'))

/-! ## `getjob` -/

/-- Waiting to be run: pending, or dead and restartable. -/
def eligible (r : Row) : Bool :=
  eqLit r.state "pending" || (eqLit r.state "dead" && r.restartable.isSome)

/-- `runner like '%host%' or runner isnull`. -/
def acceptsHost (h : Hostname) (r : Row) : Bool :=
  like r.runner ("%" ++ h.host ++ "%") || r.runner.isNone

/-- `order by priority desc, submitted asc, jid asc`: may `r` stand before `s`? -/
def orderedBefore (r s : Row) : Prop :=
  (((sortCompare r.priority s.priority).swap.then (sortCompare r.submitted s.submitted)).then
    (compare r.jid s.jid)) ≠ .gt

instance : DecidableRel orderedBefore := fun _ _ => inferInstanceAs (Decidable (_ ≠ _))

/-- `JobQueue#getjob`. -/
def getjob (h : Hostname) (db : Jobs) : Option Row :=
  ((db.rows.filter fun r => eligible r && acceptsHost h r).insertionSort orderedBefore).head?

theorem eligible_iff {r : Row} :
    eligible r = true ↔
      r.state = some "pending" ∨ (r.state = some "dead" ∧ r.restartable ≠ none) := by
  simp only [eligible, Bool.or_eq_true, Bool.and_eq_true, eqLit_word, Option.isSome_iff_ne_none]

theorem eligible_not_running {r : Row} (h : eligible r = true) : r.state ≠ some "running" := by
  rcases eligible_iff.mp h with h | ⟨h, -⟩ <;> rw [h] <;> decide

theorem getjob_some {h : Hostname} {db : Jobs} {job : Row} (hj : getjob h db = some job) :
    job ∈ db ∧ eligible job = true := by
  have hmem := List.mem_of_mem_head? hj
  rw [List.mem_insertionSort, List.mem_filter, Bool.and_eq_true] at hmem
  exact ⟨hmem.1, hmem.2.1⟩

theorem getjob_accepts {h : Hostname} {db : Jobs} {job : Row} (hj : getjob h db = some job) :
    acceptsHost h job = true := by
  have hmem := List.mem_of_mem_head? hj
  rw [List.mem_insertionSort, List.mem_filter, Bool.and_eq_true] at hmem
  exact hmem.2.2

/-- The head of a list sorted by insertion is before every element of it, when the relation is
    total and transitive on them.  Induction on the list. -/
theorem insertionSort_head {α : Type} {R : α → α → Prop} [DecidableRel R] :
    ∀ {l : List α} {m : α}, (∀ x ∈ l, ∀ y ∈ l, R x y ∨ R y x) →
      (∀ x ∈ l, ∀ y ∈ l, ∀ z ∈ l, R x y → R y z → R x z) →
      (l.insertionSort R).head? = some m → ∀ x ∈ l, R m x
  | [], _, _, _, _ => by simp
  | a :: l, m, htotal, htrans, hm => by
    have hmem : ∀ {y}, y ∈ l.insertionSort R → y ∈ l := fun h => (List.mem_insertionSort R).mp h
    have hsub : ∀ {y}, y ∈ l → y ∈ a :: l := fun h => List.mem_cons_of_mem a h
    have haa : R a a := (htotal a List.mem_cons_self a List.mem_cons_self).elim id id
    rw [List.insertionSort_cons] at hm
    cases hs : l.insertionSort R with
    | nil =>
      obtain rfl : l = [] := by
        have hlen := congrArg List.length hs
        rw [List.length_insertionSort] at hlen
        exact List.eq_nil_of_length_eq_zero hlen
      obtain rfl : a = m := by simpa [hs] using hm
      intro x hx
      rw [List.mem_singleton.mp hx]
      exact haa
    | cons b t =>
      have hb : b ∈ l := hmem (hs ▸ List.mem_cons_self)
      have hmin : ∀ x ∈ l, R b x := insertionSort_head
        (fun x hx y hy => htotal x (hsub hx) y (hsub hy))
        (fun x hx y hy z hz => htrans x (hsub hx) y (hsub hy) z (hsub hz)) (by rw [hs]; rfl)
      rw [hs, List.orderedInsert] at hm
      split at hm
      · rename_i hab
        obtain rfl : a = m := by simpa using hm
        intro x hx
        rcases List.mem_cons.mp hx with rfl | hx
        · exact haa
        · exact htrans a List.mem_cons_self b (hsub hb) x (hsub hx) hab (hmin x hx)
      · rename_i hab
        obtain rfl : b = m := by simpa using hm
        intro x hx
        rcases List.mem_cons.mp hx with rfl | hx
        · exact (htotal x List.mem_cons_self b (hsub hb)).resolve_left hab
        · exact hmin x hx

/-- **The spec of `getjob`**, on rows that `order by` sorts: the job it returns may stand before
    every other one it might have returned. -/
theorem getjob_first {h : Hostname} {db : Jobs} {job : Row}
    (htotal : ∀ r ∈ db, ∀ s ∈ db, orderedBefore r s ∨ orderedBefore s r)
    (htrans : ∀ r ∈ db, ∀ s ∈ db, ∀ t ∈ db, orderedBefore r s → orderedBefore s t →
      orderedBefore r t)
    (hj : getjob h db = some job) :
    ∀ r ∈ db, eligible r = true → acceptsHost h r = true → orderedBefore job r := by
  have hsub : ∀ {r}, r ∈ db.rows.filter (fun r => eligible r && acceptsHost h r) → r ∈ db :=
    fun hr => List.mem_of_mem_filter hr
  intro r hr hel hacc
  refine insertionSort_head (fun x hx y hy => htotal x (hsub hx) y (hsub hy))
    (fun x hx y hy z hz => htrans x (hsub hx) y (hsub hy) z (hsub hz)) hj r ?_
  rw [List.mem_filter, hel, hacc]
  exact ⟨hr, rfl⟩

/-! ## The updates -/

/-- `'#{ v }'`: nil interpolates as the empty text. -/
def spliced (v : Option String) : Option String := some (v.getD "")

/-- `JobQueue#jobisrunning`. -/
def jobisrunning (job : Row) (db : Jobs) : Jobs :=
  db.update (fun r => r.jid == job.jid) fun r =>
    { r with pid := spliced job.pid, state := spliced job.state, started := spliced job.started,
             runner := spliced job.runner, stdout := spliced job.stdout,
             stderr := spliced job.stderr }

/-- `JobQueue#jobisdone`. -/
def jobisdone (job : Row) (db : Jobs) : Jobs :=
  db.update (fun r => r.jid == job.jid) fun r =>
    { r with state := spliced job.state, exitStatus := spliced job.exitStatus,
             finished := spliced job.finished, elapsed := spliced job.elapsed }

/-- `JobQueue#getdeadjobs`. -/
def getdeadjobs (h : Hostname) (started : String) (db : Jobs) : List Row :=
  db.rows.filter fun r =>
    eqLit r.state "running" && eqLit r.runner h.name && leLit r.started started

/-- `JobQueue#jobisdead`. -/
def jobisdead (job : Row) (db : Jobs) : Jobs :=
  db.update (fun r => r.jid == job.jid) fun r => { r with state := some "dead" }

/-- `Feeder#fill_morgue`; `started` is when the feeder started. -/
def fillMorgue (h : Hostname) (started : String) (db : Jobs) : Jobs :=
  (getdeadjobs h started db).foldl (fun db job => jobisdead job db) db

/-- An update by jid changes the row of that jid and no other. -/
theorem Jobs.mem_update_jid {db : Jobs} {jid : Nat} {f : Row → Row} {s : Row} :
    s ∈ db.update (fun r => r.jid == jid) f ↔
      (s ∈ db ∧ s.jid ≠ jid) ∨ (∃ r ∈ db, r.jid = jid ∧ s = { f r with jid := r.jid }) := by
  rw [Jobs.mem_update]
  constructor
  · rintro ⟨r, hr, rfl⟩
    unfold setWhere
    by_cases hj : r.jid = jid
    · right
      exact ⟨r, hr, hj, by simp [hj]⟩
    · left
      simp only [beq_iff_eq, hj, if_false]
      exact ⟨hr, hj⟩
  · rintro (⟨hs, hj⟩ | ⟨r, hr, hj, rfl⟩)
    · exact ⟨s, hs, by simp [setWhere, hj]⟩
    · exact ⟨r, hr, by simp [setWhere, hj]⟩

/-- **The spec of `fill_morgue`**: the rows `getdeadjobs` selects become dead, the others stay.
    Induction on the list of dead jobs, which is read before the first is buried. -/
theorem mem_fillMorgue {h : Hostname} {started : String} {db : Jobs} {s : Row} :
    s ∈ fillMorgue h started db ↔
      (s ∈ db ∧ s ∉ getdeadjobs h started db) ∨
      (∃ r ∈ getdeadjobs h started db, s = { r with state := some "dead" }) := by
  -- stated for any list of rows of the table, so that the induction goes through
  have key : ∀ (jobs : List Row) (db' : Jobs), (∀ j ∈ jobs, j ∈ db) →
      (∀ t, t ∈ jobs.foldl (fun db job => jobisdead job db) db' ↔
        (t ∈ db' ∧ ∀ j ∈ jobs, t.jid ≠ j.jid) ∨
        (∃ j ∈ jobs, ∃ r ∈ db', r.jid = j.jid ∧ t = { r with state := some "dead" })) := by
    intro jobs
    induction jobs with
    | nil => intro db' _ t; simp
    | cons j jobs ih =>
      intro db' hj t
      rw [List.foldl_cons, ih _ fun k hk => hj k (List.mem_cons_of_mem _ hk)]
      simp only [jobisdead, Jobs.mem_update_jid]
      constructor
      · rintro (⟨⟨ht, hne⟩ | ⟨r, hr, hrj, rfl⟩, hrest⟩ | ⟨k, hk, r, hr, hrk, rfl⟩)
        · left
          refine ⟨ht, fun k hk => ?_⟩
          rcases List.mem_cons.mp hk with rfl | hk
          · exact hne
          · exact hrest k hk
        · right
          exact ⟨j, List.mem_cons_self, r, hr, hrj, rfl⟩
        · right
          rcases hr with ⟨hr, -⟩ | ⟨r', hr', hrj, rfl⟩
          · exact ⟨k, List.mem_cons_of_mem _ hk, r, hr, hrk, rfl⟩
          · exact ⟨j, List.mem_cons_self, r', hr', hrj, rfl⟩
      · rintro (⟨ht, hne⟩ | ⟨k, hk, r, hr, hrk, rfl⟩)
        · left
          exact ⟨Or.inl ⟨ht, hne j List.mem_cons_self⟩,
            fun k hk => hne k (List.mem_cons_of_mem _ hk)⟩
        · by_cases hrest : ∀ k' ∈ jobs, r.jid ≠ k'.jid
          · left
            have hkj : k = j := by
              rcases List.mem_cons.mp hk with rfl | hk
              · rfl
              · exact absurd hrk (hrest k hk)
            subst hkj
            exact ⟨Or.inr ⟨r, hr, hrk, rfl⟩, hrest⟩
          · right
            push Not at hrest
            obtain ⟨k', hk', hrk'⟩ := hrest
            by_cases hrj : r.jid = j.jid
            · exact ⟨k', hk', _, Or.inr ⟨r, hr, hrj, rfl⟩, hrk', rfl⟩
            · exact ⟨k', hk', r, Or.inl ⟨hr, hrj⟩, hrk', rfl⟩
  have hsub : ∀ j ∈ getdeadjobs h started db, j ∈ db := fun j hj => List.mem_of_mem_filter hj
  rw [fillMorgue, key _ _ hsub]
  constructor
  · rintro (⟨hs, hne⟩ | ⟨j, hj, r, hr, hrj, rfl⟩)
    · exact Or.inl ⟨hs, fun hdead => hne s hdead rfl⟩
    · exact Or.inr ⟨j, hj, by rw [Jobs.eq_of_jid hr (hsub j hj) hrj]⟩
  · rintro (⟨hs, hnot⟩ | ⟨r, hr, rfl⟩)
    · left
      refine ⟨hs, fun j hj hjid => hnot ?_⟩
      rwa [Jobs.eq_of_jid hs (hsub j hj) hjid]
    · exact Or.inr ⟨r, hr, r, hsub r hr, rfl, rfl⟩

/-- A host may be called `1e1` or `10e0`, and to SQLite these are one number. -/
theorem mem_getdeadjobs {h : Hostname} {started : String} {db : Jobs} {r : Row}
    (hr : r ∈ getdeadjobs h started db) :
    r ∈ db ∧ r.state = some "running" ∧
      ∃ runner, r.runner = some runner ∧ (runner = h.name ∨ SameNumber runner h.name) := by
  unfold getdeadjobs at hr
  rw [List.mem_filter, Bool.and_eq_true, Bool.and_eq_true] at hr
  obtain ⟨hmem, ⟨hstate, hhost⟩, -⟩ := hr
  refine ⟨hmem, eqLit_word.2.2.1.mp hstate, ?_⟩
  cases hrunner : r.runner with
  | none => simp [hrunner, eqLit] at hhost
  | some runner => exact ⟨runner, rfl, eqLit_cases (hrunner ▸ hhost)⟩

/-! ## Who runs a row -/

/-- The row of `jid` is running on host `h` with pid `cid`. -/
def Runs (db : Jobs) (h : Hostname) (cid jid : Nat) : Prop :=
  ∃ r ∈ db, r.jid = jid ∧ r.state = some "running" ∧ r.runner = some h.name ∧
    r.pid = some (toString cid)

/-- The running rows of other hosts than `h` are the same in both tables. -/
def Frame (h : Hostname) (db db' : Jobs) : Prop :=
  ∀ r : Row, r.state = some "running" → r.runner ≠ some h.name → (r ∈ db ↔ r ∈ db')

theorem Frame.refl (h : Hostname) (db : Jobs) : Frame h db db := fun _ _ _ => Iff.rfl

theorem Frame.trans {h : Hostname} {db db' db'' : Jobs} (a : Frame h db db')
    (b : Frame h db' db'') : Frame h db db'' :=
  fun r hr hn => (a r hr hn).trans (b r hr hn)

/-- What runs on another host still runs there. -/
theorem Frame.runs {h k : Hostname} {db db' : Jobs} (f : Frame h db db') (hne : k ≠ h)
    {cid jid : Nat} (hr : Runs db k cid jid) : Runs db' k cid jid := by
  obtain ⟨r, hr, hjid, hstate, hrunner, hpid⟩ := hr
  refine ⟨r, (f r hstate ?_).mp hr, hjid, hstate, hrunner, hpid⟩
  rw [hrunner]
  intro heq
  exact hne (Hostname.ext (Option.some.inj heq))

/-- No row runs under another name that is the same number as the name of `h`. -/
def NoNamesake (h : Hostname) (db : Jobs) : Prop :=
  ∀ r ∈ db, r.state = some "running" → ∀ runner, r.runner = some runner →
    SameNumber runner h.name → runner = h.name

instance (h : Hostname) (db : Jobs) : Decidable (NoNamesake h db) :=
  decidable_of_iff (∀ r ∈ db.rows, r.state = some "running" → ∀ runner ∈ r.runner,
    SameNumber runner h.name → runner = h.name) Iff.rfl

/-- Without namesakes the dead jobs are the host's own. -/
theorem getdeadjobs_runner {h : Hostname} {started : String} {db : Jobs} (hn : NoNamesake h db)
    {r : Row} (hr : r ∈ getdeadjobs h started db) : r.runner = some h.name := by
  obtain ⟨hmem, hstate, runner, hrunner, heq | hsame⟩ := mem_getdeadjobs hr
  · rw [hrunner, heq]
  · rw [hrunner, hn r hmem hstate runner hrunner hsame]

/-- It touches no running row of another host. -/
theorem fillMorgue_frame {h : Hostname} (started : String) {db : Jobs} (hn : NoNamesake h db) :
    Frame h db (fillMorgue h started db) := by
  intro r hrun hhost
  constructor
  · intro hr
    exact mem_fillMorgue.mpr (Or.inl ⟨hr, fun hdead => hhost (getdeadjobs_runner hn hdead)⟩)
  · intro hr
    rcases mem_fillMorgue.mp hr with ⟨hr, -⟩ | ⟨r', -, rfl⟩
    · exact hr
    · exact absurd hrun (by show some "dead" ≠ _; decide)

/-- A row has one host and one pid. -/
theorem Runs.unique {db : Jobs} {h k : Hostname} {cid cid' jid : Nat} (a : Runs db h cid jid)
    (b : Runs db k cid' jid) : h = k ∧ cid = cid' := by
  obtain ⟨r, hr, hrj, -, hrunner, hpid⟩ := a
  obtain ⟨s, hs, hsj, -, hrunner', hpid'⟩ := b
  obtain rfl := Jobs.eq_of_jid hr hs (hrj.trans hsj.symm)
  refine ⟨Hostname.ext (Option.some.inj (hrunner.symm.trans hrunner')), ?_⟩
  exact toString_inj.mp (Option.some.inj (hpid.symm.trans hpid'))

end RubyQueue.JobQueue
