/-
  The ids of a batch: the counter `JobQueue#submit` keeps in Ruby, and the keys SQLite gives out.

  The paths of a job's files are made from the counter, the row gets the next key.  Both start one
  above the largest jid and go up by one with every job, so they agree whatever was deleted before.
  No later operation writes a path that is not made from the jid of its own row.

  * `batch_numbered` — a submission of n jobs that commits makes n new rows, numbered on from the
                       largest jid, and in every state of every queue the paths of a row are its own.

  A submission raises, and makes no row, when a job's stdin or data is not there (`JobFiles`).  An
  empty value is the exception to "the row carries the value": `QDB.q` writes NULL for it.
-/
import RubyQueue.JobFiles
import RubyQueue.Operations
import RubyQueue.Update

namespace RubyQueue.Batch

open RubyQueue.Sqlite RubyQueue.Quote RubyQueue.JobQueue RubyQueue.Feeder RubyQueue.Operations
open RubyQueue.Submitter RubyQueue.JobFiles RubyQueue.Run RubyQueue.Update

/-! ## Paths of a row -/

/-- The paths in the row are made from its own jid; there are none of an output before a start. -/
structure OwnPaths (r : Row) : Prop where
  stdin : r.stdin = some (stdin4 r.jid)
  stdout : r.stdout = none ∨ r.stdout = some (stdout4 r.jid)
  stderr : r.stderr = none ∨ r.stderr = some (stderr4 r.jid)
  data : r.data = some (data4 r.jid)

/-- It is stored as it is. -/
theorem storedText_path {dir : String} (hne : dir ≠ "") (hdir : '\'' ∉ dir.toList) (jid : Nat) :
    storedText (some (dir ++ toString jid)) = some (dir ++ toString jid) := by
  have hquote : '\'' ∉ (dir ++ toString jid).toList := not_mem_path (by decide) hdir jid
  refine (storedText_eq_self_iff ?_).mpr ?_
  · intro h
    have hnil := congrArg String.toList h
    rw [String.toList_append] at hnil
    exact hne (by simpa using (List.append_eq_nil_iff.mp hnil).1)
  · intro h
    exact hquote (h.subset List.mem_cons_self)

theorem storedText_stdin4 (jid : Nat) : storedText (some (stdin4 jid)) = some (stdin4 jid) :=
  storedText_path (by decide) (by decide) jid

theorem storedText_data4 (jid : Nat) : storedText (some (data4 jid)) = some (data4 jid) :=
  storedText_path (by decide) (by decide) jid

/-- An update names no path. -/
theorem get_assign_updates {as : List (Column × Option String)} (h : Updates as) {c : Column}
    (hc : c ∉ [Column.priority, .command, .tag, .runner, .restartable, .state]) (r : Row) :
    (r.assign as).get c = r.get c := by
  refine get_assign_of_not_mem ?_ r
  rintro cv hcv rfl
  apply hc
  rcases h cv hcv with hmem | hstate | hstate
  · exact List.mem_append_left [.state] hmem
  · rw [hstate]
    decide
  · rw [hstate]
    decide

/-- **Each operation keeps the paths a row's own.** -/
theorem ownPaths_inv : RowInv OwnPaths where
  submitted now host jid job :=
    ⟨storedText_stdin4 jid, Or.inl rfl, Or.inl rfl, storedText_data4 jid⟩
  resubmitted now host job r hjid _ := by
    refine ⟨?_, Or.inl rfl, Or.inl rfl, ?_⟩
    · show storedText (some (stdin4 job.jid)) = some (stdin4 r.jid)
      rw [hjid, storedText_stdin4]
    · show storedText (some (data4 job.jid)) = some (data4 r.jid)
      rw [hjid, storedText_data4]
  assigned as r hup _ hr := by
    have hkept : ∀ {c : Column}, c ∉ [Column.priority, .command, .tag, .runner, .restartable,
        .state] → (r.assign as).get c = r.get c := fun hc => get_assign_updates hup hc r
    refine ⟨?_, ?_, ?_, ?_⟩
    · exact (@hkept .stdin (by decide)).trans hr.stdin
    · exact hr.stdout.imp (@hkept .stdout (by decide)).trans (@hkept .stdout (by decide)).trans
    · exact hr.stderr.imp (@hkept .stderr (by decide)).trans (@hkept .stderr (by decide)).trans
    · exact (@hkept .data (by decide)).trans hr.data
  running h e job r hjid hr := by
    have hjob : r.jid = job.jid := hjid
    refine ⟨hr.stdin, Or.inr ?_, Or.inr ?_, hr.data⟩
    · show some (stdout4 job.jid) = some (stdout4 r.jid)
      rw [hjob]
    · show some (stderr4 job.jid) = some (stderr4 r.jid)
      rw [hjob]
  done w child r _ hr := ⟨hr.stdin, hr.stdout, hr.stderr, hr.data⟩
  dead r hr := ⟨hr.stdin, hr.stdout, hr.stderr, hr.data⟩

/-! ## The rows of a batch -/

/-- The job has a command, and no value that a literal does not give back. -/
structure PlainJob (job : JobHash) : Prop where
  command : ∃ c, job.command = some c ∧ c ≠ ""
  values : ∀ col ∈ valueColumns, ∀ v, col.1 job = some v → NoAdjacentQuotes v ∧ '\x00' ∉ v.toList

/-- `f and not f.to_s.empty?`: what is left of a value. -/
def kept (v : Option String) : Option String := v.filter (· ≠ "")

/-- The row has the values of the job, those that are left. -/
structure Carries (job : JobHash) (r : Row) : Prop where
  command : r.command = job.command
  priority : r.priority = kept (some (job.priority.getD "0"))
  tag : r.tag = kept job.tag
  runner : r.runner = kept job.runner
  restartable : r.restartable = kept job.restartable
  own : OwnPaths r

theorem storedText_eq_kept {v : Option String} (h : ∀ s, v = some s → NoAdjacentQuotes s) :
    storedText v = kept v := by
  cases v with
  | none => rfl
  | some s =>
    by_cases hs : s = ""
    · subst hs
      decide
    · rw [(storedText_eq_self_iff hs).mpr (h s rfl)]
      simp [kept, Option.filter, hs]

theorem submittedRow_carries {job : JobHash} (h : PlainJob job) (now host : String) (jid : Nat) :
    Carries job { submittedRow now host jid job with jid := jid } := by
  have hvalue : ∀ col ∈ valueColumns, ∀ v, col.1 job = some v → NoAdjacentQuotes v :=
    fun col hcol v hv => (h.values col hcol v hv).1
  obtain ⟨c, hc, hne⟩ := h.command
  refine ⟨?_, ?_, ?_, ?_, ?_, ownPaths_inv.submitted now host jid job⟩
  · show storedText job.command = job.command
    rw [hc]
    exact (storedText_eq_self_iff hne).mpr
      (hvalue (JobHash.command, Row.command) List.mem_cons_self c hc)
  · refine storedText_eq_kept fun s hs => ?_
    cases hp : job.priority with
    | none =>
      rw [hp] at hs
      obtain rfl : "0" = s := Option.some.inj hs
      unfold NoAdjacentQuotes
      decide
    | some p =>
      rw [hp] at hs
      obtain rfl : p = s := Option.some.inj hs
      exact hvalue (JobHash.priority, Row.priority) (by simp [valueColumns]) p hp
  · exact storedText_eq_kept (hvalue (JobHash.tag, Row.tag) (by simp [valueColumns]))
  · exact storedText_eq_kept (hvalue (JobHash.runner, Row.runner) (by simp [valueColumns]))
  · exact storedText_eq_kept (hvalue (JobHash.restartable, Row.restartable) (by simp [valueColumns]))

theorem newRows_jid {now host : String} : ∀ (jobs : List JobHash) (jid : Nat),
    (newRows now host jid jobs).map Row.jid = List.range' jid jobs.length
  | [], _ => rfl
  | job :: jobs, jid => by
    rw [newRows, List.map_cons, newRows_jid jobs (jid + 1), List.length_cons, List.range'_succ]

/-- Induction on the batch, with the counter. -/
theorem newRows_carry {now host : String} : ∀ {jobs : List JobHash} (jid : Nat),
    (∀ job ∈ jobs, PlainJob job) → List.Forall₂ Carries jobs (newRows now host jid jobs)
  | [], _, _ => List.Forall₂.nil
  | job :: jobs, jid, h => by
    refine List.Forall₂.cons ?_ ?_
    · exact submittedRow_carries (h job List.mem_cons_self) now host jid
    · exact newRows_carry (jid + 1) fun j hj => h j (List.mem_cons_of_mem job hj)

/-- **A batch is numbered on from the largest jid**, and the paths of every row are its own.  The
    first part holds of every submission that commits, the second after any sequence of operations
    whose values and arguments stay in their places. -/
theorem batch_numbered (sqlite : OtherSql) :
    (∀ p now host jobs w w', (∀ job : Hash, job ∈ jobs → PlainJob job.job) →
      JobFiles.submit p now host jobs w = .ok w' →
      ∃ new, w'.jobs.rows = w.jobs.rows ++ new ∧
        new.map Row.jid = List.range' (w.jobs.maxJid + 1) jobs.length ∧
        List.Forall₂ Carries (jobs.map Hash.job) new) ∧
    ∀ db, Reach Fresh (Operations.step sqlite) (fun _ op => PlainOp op) db → ∀ r ∈ db, OwnPaths r := by
  constructor
  · intro p now host jobs w w' h hok
    have hrows := (submit_ok (submitFrom_jobs hok)).1
    refine ⟨newRows now host (w.jobs.maxJid + 1) (jobs.map Hash.job), hrows, ?_,
      newRows_carry _ (List.forall_mem_map.mpr h)⟩
    rw [newRows_jid, List.length_map]
  · intro db h
    exact ownPaths_inv.all h

/-- Two jobs are submitted and the second one is deleted. -/
def deletedHighest : List Op :=
  [.client (.submit "2005-07-01" "node1" [{ command := some "ls" }, { command := some "rm" }]),
   .client (.delete ["2"])]

theorem deletedHighest_plain : Along (Operations.step fun _ _ => .error "SQL error")
    (fun _ op => PlainOp op) deletedHighest Jobs.empty := by
  refine ⟨trivial, fun _ _ => ⟨?_, fun _ _ => trivial⟩⟩
  intro what hwhat t ht
  have hjid : designate false "2" = .ok (.jid 2) := by decide
  rw [List.mem_singleton.mp hwhat, hjid] at ht
  cases ht

/-- The next batch: a command, and one with an empty tag. -/
def nextBatch : List Hash :=
  [Hash.set [] "command" (some "make"), (Hash.set [] "tag" (some "")).set "command" (some "ls")]

theorem nextBatch_plain : ∀ job ∈ nextBatch, PlainJob job.job := by
  have hvalues : ∀ job ∈ nextBatch, ∀ col ∈ valueColumns,
      ((col.1 job.job).all fun v => v ∈ ["make", "ls", ""]) = true := by decide
  have hcommands : ∀ job ∈ nextBatch, ∃ c, job.job.command = some c ∧ c ≠ "" := by
    simp [nextBatch, Hash.job, Hash.get, Hash.set]
  have hplain : ∀ v ∈ ["make", "ls", ""], NoAdjacentQuotes v ∧ '\x00' ∉ v.toList := by
    unfold NoAdjacentQuotes
    decide
  refine fun job hjob => ⟨hcommands job hjob, fun col hcol v hv => hplain v ?_⟩
  have h := hvalues job hjob col hcol
  rw [hv] at h
  exact of_decide_eq_true h

set_option maxRecDepth 4000 in
/-- It takes the jid of the deleted job again. -/
theorem batch_after_delete : ∃ db w' new,
    Reach Fresh (Operations.step fun _ _ => .error "SQL error") (fun _ op => PlainOp op) db ∧
    (∀ r ∈ db, OwnPaths r) ∧
    JobFiles.submit ⟨["q"], ["home"]⟩ "2005-07-02" "node1" nextBatch ⟨db, fun _ => none, ""⟩ = .ok w' ∧
    w'.jobs.rows = db.rows ++ new ∧ new.map Row.jid = [2, 3] := by
  obtain ⟨db, hdb, hp⟩ := @exists_of_any _ _ (Operations.step fun _ _ => .error "SQL error")
    (fun db => decide (db.maxJid = 1)) deletedHighest Jobs.empty (by decide)
  have hmax : db.maxJid = 1 := of_decide_eq_true hp
  have hreach : Reach Fresh (Operations.step fun _ _ => .error "SQL error")
      (fun _ op => PlainOp op) db := (Reach.init fresh_empty).exec deletedHighest_plain hdb
  obtain ⟨hbatch, hown⟩ := batch_numbered fun _ _ => .error "SQL error"
  -- no job of it asks for a stdin or data
  obtain ⟨w', hok⟩ : ∃ w', JobFiles.submit ⟨["q"], ["home"]⟩ "2005-07-02" "node1" nextBatch
      ⟨db, fun _ => none, ""⟩ = .ok w' := by
    exact submitFrom_ok_iff.mpr ⟨by decide, allSupplied_of_none (by decide)⟩
  obtain ⟨new, hrows, hjids, -⟩ := hbatch _ _ _ _ _ _ nextBatch_plain hok
  have hjids : new.map Row.jid = List.range' (db.maxJid + 1) nextBatch.length := hjids
  rw [hmax] at hjids
  exact ⟨db, w', new, hreach, hown db hreach, hok, hrows, hjids⟩

/-- SQLite on `delete from jobs where jid=1` and `update jobs set stdin='stdin/9'`, one after the
    other. -/
def moveStdin : OtherSql := fun text db =>
  if text = "1\n;update jobs set stdin='stdin/9'--".toList then
    .ok ((db.delete (·.jid == 1)).update (fun _ => true) ({ · with stdin := some "stdin/9" }))
  else .error "SQL error"

/-- Two jobs are submitted, and an argument of `delete` is a number on its first line only. -/
def movedStdin : List Op :=
  [.client (.submit "2005-07-01" "node1" [{ command := some "make" }, { command := some "ls" }]),
   .client (.delete ["1\n;update jobs set stdin='stdin/9'--"])]

set_option maxRecDepth 4000 in
/-- An empty tag is NULL in the row; and an argument of `delete` can hold an update, in a run whose
    updates are free of quotes (there is none). -/
theorem batch_loses_empty_tag :
    (∃ w', JobFiles.submit ⟨["q"], ["home"]⟩ "2005-07-01" "node1"
        [(Hash.set [] "tag" (some "")).set "command" (some "ls")] ⟨Jobs.empty, fun _ => none, ""⟩
        = .ok w' ∧ ∀ r ∈ w'.jobs, r.tag = none ∧ r.tag ≠ some "") ∧
    ∃ db, Reach Fresh (Operations.step moveStdin)
        (fun _ op => ∀ kvs targets, op = .client (.update kvs targets) → QuoteFree kvs) db ∧
      ∃ r ∈ db, ¬ OwnPaths r := by
  constructor
  · refine ⟨_, rfl, fun r hr => ?_⟩
    revert r
    decide
  · obtain ⟨db, hdb, hp⟩ := @exists_of_any _ _ (Operations.step moveStdin)
      (fun db => decide (∃ r ∈ db.rows, r.jid = 2 ∧ r.stdin = some "stdin/9"))
      movedStdin Jobs.empty (by decide)
    obtain ⟨r, hr, hjid, hstdin⟩ := of_decide_eq_true hp
    refine ⟨db, (Reach.init fresh_empty).exec (along_of_forall ?_ _) hdb, r, hr, ?_⟩
    · intro op hop _ kvs targets h
      subst h
      simp [movedStdin] at hop
    · intro hown
      have hpath := hown.stdin
      rw [hjid, hstdin] at hpath
      exact absurd hpath (by decide)

end RubyQueue.Batch
