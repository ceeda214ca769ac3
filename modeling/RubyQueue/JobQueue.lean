/-
  The operations of `lib/rq/jobqueue.rb` that clients run: `submit`, `resubmit`, `update`, `delete`.

  Each is the statement text the Ruby code builds, read back: `submit` and `resubmit` quote their
  values with `QDB.q`, `update` splices them in raw.  Text outside the shapes read here (a value of
  `update` that breaks out of its quotes, an argument of `delete` that is a number on one of its
  lines only) is handed to `sqlite`, a parameter: SQLite on statements the model does not parse.

  Every operation has one spec lemma — `submitOne_eq`, `resubmit_eq`, `update_ok`, `delete_ok` — and
  no proof after this file opens the statement text again.

  This is the table's part of the operations: `JobFiles` and `Toucher` have them with the files of the
  jobs, on which they can raise as well.

  Two Rubies are in question.  The code was written for 1.8, and the README asks for 1.9.  Where 1.9
  stops the code at once the model follows 1.8: an Array interpolates as its joined elements in
  `resubmit` here, and a text has `each` in `Lockfile` and `LockText`.  `ZombieIos`, `Interpolate` and
  `Resubmitter` are about code that runs in 1.9 and follow that; `JobIds` compares the two.
-/
import Mathlib.Data.List.DropRight
import RubyQueue.Base.Raise
import RubyQueue.Table

namespace RubyQueue.JobQueue

open RubyQueue.Sqlite RubyQueue.Quote RubyQueue.Raise

/-! ## Paths of a job's files, relative to the queue -/

def stdin4 (jid : Nat) : String := "stdin/" ++ toString jid
def stdout4 (jid : Nat) : String := "stdout/" ++ toString jid
def stderr4 (jid : Nat) : String := "stderr/" ++ toString jid
def data4 (jid : Nat) : String := "data/" ++ toString jid

/-! ## `submit` -/

/-- The keys of a job hash that `submit` puts into the row. -/
structure JobHash where
  command : Option String
  priority : Option String := none
  tag : Option String := none
  runner : Option String := none
  restartable : Option String := none
deriving DecidableEq, Repr

/-- The tuple `submit` fills in; fields it leaves alone are nil. -/
def submitTuple (now host : String) (jid : Nat) (job : JobHash) : List (Option Text) :=
  [none, some (job.priority.getD "0"), some "pending", some now, none, none, none, some host,
   job.runner, some (stdin4 jid), none, none, some (data4 jid), none, none, job.tag,
   job.restartable, job.command].map (Option.map String.toList)

/-- The row eighteen values make; the first stands for the key and is ignored. -/
def Row.ofValues : List (Option Text) → Option Row
  | [_, priority, state, submitted, started, finished, elapsed, submitter, runner, stdin, stdout,
     stderr, data, pid, exitStatus, tag, restartable, command] =>
    let s := Option.map String.ofList
    some ⟨0, s priority, s state, s submitted, s started, s finished, s elapsed, s submitter,
      s runner, s stdin, s stdout, s stderr, s data, s pid, s exitStatus, s tag, s restartable,
      s command⟩
  | _ => none

/-- One round of the loop of `submit`; `jid` is the counter kept in Ruby. -/
def submitOne (now host : String) (jid : Nat) (job : JobHash) (db : Jobs) : Except String Jobs :=
  match job.command with
  | none => .error "no command for job"
  | some _ =>
    match (readInsert (insertSql (submitTuple now host jid job))).bind Row.ofValues with
    | some r => .ok (db.insert r)
    | none => .error "SQL error"

/-- The loop of `submit`. -/
def submitFrom (now host : String) : Nat → List JobHash → Jobs → Except String Jobs
  | _, [], db => .ok db
  | jid, job :: jobs, db => do
    let db ← submitOne now host jid job db
    submitFrom now host (jid + 1) jobs db

/-- `JobQueue#submit`, the table's part of it; `JobFiles.submit` has the files, and where it returns
    this is what it makes of the table (`submitFrom_jobs`). -/
def submit (now host : String) (jobs : List JobHash) (db : Jobs) : Except String Jobs :=
  submitFrom now host (db.maxJid + 1) jobs db

/-- The text a quoted value comes back as. -/
def storedText (v : Option String) : Option String :=
  (stored (v.map String.toList)).map String.ofList

/-- The row `submit` inserts, before SQLite gives it its key. -/
def submittedRow (now host : String) (jid : Nat) (job : JobHash) : Row where
  jid := 0
  priority := storedText (some (job.priority.getD "0"))
  state := some "pending"
  submitted := storedText (some now)
  started := none
  finished := none
  elapsed := none
  submitter := storedText (some host)
  runner := storedText job.runner
  stdin := storedText (some (stdin4 jid))
  stdout := none
  stderr := none
  data := storedText (some (data4 jid))
  pid := none
  exitStatus := none
  tag := storedText job.tag
  restartable := storedText job.restartable
  command := storedText job.command

/-- **The spec of one round**: with a command it inserts `submittedRow`, without it raises. -/
theorem submitOne_eq (now host : String) (jid : Nat) (job : JobHash) (db : Jobs) :
    submitOne now host jid job db =
      if job.command.isSome then .ok (db.insert (submittedRow now host jid job))
      else .error "no command for job" := by
  have hread : (readInsert (insertSql (submitTuple now host jid job))).bind Row.ofValues
      = some (submittedRow now host jid job) := by
    rw [readInsert_insertSql _ (by simp [submitTuple])]
    have hp : (stored (some "pending".toList)).map String.ofList = some "pending" := by decide
    simp only [submitTuple, List.map_cons, List.map_nil, Option.bind_some, Row.ofValues,
      submittedRow, storedText, Option.map_some, Option.map_none, hp]
    rfl
  cases hc : job.command with
  | none => simp [submitOne, hc]
  | some c => simp [submitOne, hc, hread]

/-- The rows a batch adds, the first with the key `jid`. -/
def newRows (now host : String) : Nat → List JobHash → List Row
  | _, [] => []
  | jid, job :: jobs =>
    { submittedRow now host jid job with jid := jid } :: newRows now host (jid + 1) jobs

/-- The loop of `submit` keeps the counter in step with the keys SQLite gives out: induction on the
    batch, the counter being one above the largest jid throughout. -/
theorem submitFrom_ok {now host : String} : ∀ {jobs : List JobHash} {jid : Nat} {db db' : Jobs},
    jid = db.maxJid + 1 → submitFrom now host jid jobs db = .ok db' →
    db'.rows = db.rows ++ newRows now host jid jobs ∧ ∀ job ∈ jobs, job.command.isSome
  | [], _, db, db', _, h => by
    injection h with h
    subst h
    exact ⟨by simp [newRows], by simp⟩
  | job :: jobs, jid, db, db', hjid, h => by
    rw [submitFrom, submitOne_eq] at h
    split at h
    · rename_i hc
      have hnext : jid + 1 = (db.insert (submittedRow now host jid job)).maxJid + 1 := by
        rw [Jobs.maxJid_insert, hjid]
      obtain ⟨hrows, hcmd⟩ := submitFrom_ok hnext h
      refine ⟨?_, ?_⟩
      · rw [hrows, newRows]
        show db.rows ++ [{ submittedRow now host jid job with jid := db.maxJid + 1 }] ++ _ = _
        rw [← hjid, List.append_assoc, List.singleton_append]
      · intro job' hjob'
        rcases List.mem_cons.mp hjob' with rfl | hjob'
        · exact hc
        · exact hcmd job' hjob'
    · cases h

/-- **The spec of `submit`**: the old rows, and one new row for each job of the batch. -/
theorem submit_ok {now host : String} {jobs : List JobHash} {db db' : Jobs}
    (h : submit now host jobs db = .ok db') :
    db'.rows = db.rows ++ newRows now host (db.maxJid + 1) jobs ∧ ∀ job ∈ jobs, job.command.isSome :=
  submitFrom_ok rfl h

theorem submit_one {now host : String} {job : JobHash} {db : Jobs} (h : job.command.isSome = true) :
    submit now host [job] db = .ok (db.insert (submittedRow now host (db.maxJid + 1) job)) := by
  rw [submit, submitFrom, submitOne_eq, if_pos h]
  rfl

theorem newRows_getElem? {now host : String} : ∀ (jobs : List JobHash) (jid i : Nat),
    (newRows now host jid jobs)[i]? =
      jobs[i]?.map fun job => { submittedRow now host (jid + i) job with jid := jid + i }
  | [], _, _ => rfl
  | job :: jobs, jid, 0 => rfl
  | job :: jobs, jid, i + 1 => by
    have ih := @newRows_getElem? now host jobs (jid + 1) i
    rw [show jid + 1 + i = jid + (i + 1) by omega] at ih
    exact ih

theorem newRows_get {now host : String} {jobs : List JobHash} {jid i : Nat} {job : JobHash}
    (h : jobs[i]? = some job) :
    { submittedRow now host (jid + i) job with jid := jid + i } ∈ newRows now host jid jobs := by
  refine @List.mem_of_getElem? _ _ i _ ?_
  rw [newRows_getElem?, h]
  rfl

/-! ## Is the value read back the value submitted? -/

/-- The five keys of a job hash whose text `submit` stores, with their columns. -/
def valueColumns : List ((JobHash → Option String) × (Row → Option String)) :=
  [(JobHash.command, Row.command), (JobHash.tag, Row.tag), (JobHash.runner, Row.runner),
   (JobHash.priority, Row.priority), (JobHash.restartable, Row.restartable)]

/-- No two single quotes stand side by side. -/
def NoAdjacentQuotes (v : String) : Prop := ¬ ['\'', '\''] <:+: v.toList

theorem storedText_eq_self_iff {v : String} (hv : v ≠ "") :
    storedText (some v) = some v ↔ NoAdjacentQuotes v := by
  have hne : v.toList ≠ [] := by simpa using hv
  rw [NoAdjacentQuotes, ← stored_eq_self_iff hne]
  show (stored (some v.toList)).map String.ofList = some v ↔ _
  cases stored (some v.toList) with
  | none => simp
  | some w =>
    simp only [Option.map_some, Option.some.injEq]
    constructor
    · rintro rfl; simp
    · rintro rfl; simp

theorem submittedRow_column {col : (JobHash → Option String) × (Row → Option String)}
    (hcol : col ∈ valueColumns) {job : JobHash} {v : String} (h : col.1 job = some v)
    (now host : String) (jid key : Nat) :
    col.2 { submittedRow now host jid job with jid := key } = storedText (some v) := by
  simp only [valueColumns, List.mem_cons, List.not_mem_nil, or_false] at hcol
  rcases hcol with rfl | rfl | rfl | rfl | rfl
  · exact congrArg storedText h
  · exact congrArg storedText h
  · exact congrArg storedText h
  · show storedText (some (job.priority.getD "0")) = _
    rw [show job.priority = some v from h]
    rfl
  · exact congrArg storedText h

/-- **Fidelity of a submission.**  For every batch that commits, every job of it and every one of
    its five values: the value read back from the new row is the value submitted, and the literal
    `QDB.q` wrote for it decodes to it, exactly when the value has no two adjacent quotes. -/
theorem submit_reads_back_iff (now host : String) (jobs : List JobHash) (db db' : Jobs)
    (h : submit now host jobs db = .ok db') (i : Nat) (job : JobHash) (hi : jobs[i]? = some job) :
    ∃ r ∈ db', r.jid = db.maxJid + 1 + i ∧
      ∀ col ∈ valueColumns, ∀ v : String, v ≠ "" → col.1 job = some v →
        (col.2 r = some v ↔ NoAdjacentQuotes v) ∧
        (readValue (q (some v.toList)) = some (some v.toList, []) ↔ NoAdjacentQuotes v) := by
  refine ⟨{ submittedRow now host (db.maxJid + 1 + i) job with jid := db.maxJid + 1 + i }, ?_, rfl,
    ?_⟩
  · rw [Jobs.mem_def, (submit_ok h).1]
    exact List.mem_append_right _ (newRows_get hi)
  · intro col hcol v hv hjob
    have hne : v.toList ≠ [] := by simpa using hv
    constructor
    · rw [submittedRow_column hcol hjob, storedText_eq_self_iff hv]
    · have hq := readsAs_q (some v.toList) [] (by simp)
      rw [List.append_nil] at hq
      rw [hq, NoAdjacentQuotes, ← stored_eq_self_iff hne]
      simp

theorem submit_reads_back_plain :
    ∃ db', submit "2005-07-01" "node1" [{ command := some "echo it's" }] Jobs.empty = .ok db' ∧
      ∃ r ∈ db', r.jid = 1 ∧ r.command = some "echo it's" := by
  obtain ⟨db', h⟩ : ∃ db', submit "2005-07-01" "node1" [{ command := some "echo it's" }] Jobs.empty
      = .ok db' := ⟨_, submit_one rfl⟩
  obtain ⟨r, hr, hjid, hcol⟩ := submit_reads_back_iff _ _ _ _ _ h 0 _ rfl
  refine ⟨db', h, r, hr, hjid, ?_⟩
  exact (hcol (JobHash.command, Row.command) List.mem_cons_self "echo it's" (by decide) rfl).1.mpr
    (by unfold NoAdjacentQuotes; decide)

/-- The empty shell word `''` comes back as a lone quote. -/
theorem submit_loses_quotes :
    ∃ db', submit "2005-07-01" "node1" [{ command := some "echo ''" }] Jobs.empty = .ok db' ∧
      ∀ r ∈ db', r.command = some "echo '" ∧ r.command ≠ some "echo ''" := by
  refine ⟨_, submit_one rfl, fun r hr => ?_⟩
  have hstored : storedText (some "echo ''") = some "echo '" := by decide
  rcases Jobs.mem_insert.mp hr with hr | rfl
  · cases hr
  · show storedText (some "echo ''") = _ ∧ storedText (some "echo ''") ≠ _
    rw [hstored]
    decide

/-! ## Assignments of an update statement -/

/-- The assignments a `set` list makes, when every name in it is a column that may be set. -/
def assignments (set : Text) : Option (List (Column × Option String)) :=
  (readSet set.length set).bind fun kvs =>
    kvs.mapM fun kv => (Column.ofName (String.ofList kv.1)).map fun c => (c, kv.2.map String.ofList)

/-- Make the assignments, in order. -/
def Row.assign (r : Row) (kvs : List (Column × Option String)) : Row :=
  kvs.foldl (fun r kv => r.set kv.2 kv.1) r

/-! ## `resubmit` -/

/-- The tuple `resubmit` fills in for a job, field by field, without the key. -/
def resubmitTuple (now host : String) (job : Row) : List (Column × Option String) :=
  [(.priority, some (job.priority.getD "0")), (.state, some "pending"), (.submitted, some now),
   (.started, none), (.finished, none), (.elapsed, none), (.submitter, some host),
   (.runner, job.runner), (.stdin, some (stdin4 job.jid)), (.stdout, none), (.stderr, none),
   (.data, some (data4 job.jid)), (.pid, none), (.exitStatus, none), (.tag, job.tag),
   (.restartable, job.restartable), (.command, job.command)]

/-- `kvs.join ','` of `resubmit`. -/
def resubmitSet (now host : String) (job : Row) : Text :=
  joinSet [] ((resubmitTuple now host job).map fun kv =>
    (kv.1.name.toList, q (kv.2.map String.toList)))

/-- `JobQueue#resubmit` of one job. -/
def resubmit (now host : String) (job : Row) (db : Jobs) : Except String Jobs :=
  match job.command with
  | none => .error "no command for job"
  | some _ =>
    match assignments (resubmitSet now host job) with
    | some kvs => .ok (db.update (fun r => r.jid == job.jid) (·.assign kvs))
    | none => .error "SQL error"

/-- What `resubmit` makes of a row. -/
def resubmittedRow (now host : String) (job r : Row) : Row where
  jid := r.jid
  priority := storedText (some (job.priority.getD "0"))
  state := some "pending"
  submitted := storedText (some now)
  started := none
  finished := none
  elapsed := none
  submitter := storedText (some host)
  runner := storedText job.runner
  stdin := storedText (some (stdin4 job.jid))
  stdout := none
  stderr := none
  data := storedText (some (data4 job.jid))
  pid := none
  exitStatus := none
  tag := storedText job.tag
  restartable := storedText job.restartable
  command := storedText job.command

/-- An assignment list whose values read as values reads back as the assignments it spells. -/
theorem assignments_joinSet {gap : Text} (hg : ∀ c ∈ gap, isBlank c = true)
    (kvs : List (Column × Text × Option Text)) (hne : kvs ≠ [])
    (hk : ∀ kv ∈ kvs, ReadsAs kv.2.1 kv.2.2) :
    assignments (joinSet gap (kvs.map fun kv => (kv.1.name.toList, kv.2.1)))
      = some (kvs.map fun kv => (kv.1, kv.2.2.map String.ofList)) := by
  have hlen : ∀ l : List (Text × Text), l.length ≤ (joinSet gap l).length := by
    intro l
    fun_induction joinSet gap l with
    | case1 => exact Nat.le_refl _
    | case2 name v => simp only [List.length_cons, List.length_append, List.length_nil]; omega
    | case3 name v l _ ih => simp only [List.length_append, List.length_cons] at ih ⊢; omega
  have hread := readSet_joinSet hg (kvs.map fun kv => (kv.1.name.toList, kv.2.1, kv.2.2))
    (joinSet gap (kvs.map fun kv => (kv.1.name.toList, kv.2.1))).length [] (by simp)
    (by
      intro kv hkv
      obtain ⟨kv', hkv', rfl⟩ := List.mem_map.mp hkv
      exact ⟨kv'.1.name_isNameChar.1, kv'.1.name_isNameChar.2, hk kv' hkv'⟩)
    (by simpa using hne)
    (by simpa using hlen (kvs.map fun kv => (kv.1.name.toList, kv.2.1)))
  simp only [List.nil_append, List.map_map, Function.comp_def] at hread
  rw [assignments, hread, Option.bind_some]
  clear hread hk hne
  induction kvs with
  | nil => rfl
  | cons kv kvs ih =>
    rw [List.map_cons, List.mapM_cons, ih]
    simp

/-- **The spec of `resubmit`**: with a command it replaces the row of that jid by
    `resubmittedRow`, without one it raises. -/
theorem resubmit_eq (now host : String) (job : Row) (db : Jobs) :
    resubmit now host job db =
      if job.command.isSome then
        .ok (db.update (fun r => r.jid == job.jid) (resubmittedRow now host job))
      else .error "no command for job" := by
  have hread : assignments (resubmitSet now host job)
      = some ((resubmitTuple now host job).map fun kv => (kv.1, storedText kv.2)) := by
    have h := @assignments_joinSet [] (by simp)
      ((resubmitTuple now host job).map fun kv =>
        (kv.1, q (kv.2.map String.toList), stored (kv.2.map String.toList)))
      (by simp [resubmitTuple])
      (by
        intro kv hkv
        obtain ⟨kv', -, rfl⟩ := List.mem_map.mp hkv
        exact readsAs_q _)
    rw [resubmitSet]
    simpa only [List.map_map, Function.comp_def, storedText] using h
  have hp : storedText (some "pending") = some "pending" := by decide
  have hassign : ∀ r : Row, r.assign ((resubmitTuple now host job).map fun kv =>
      (kv.1, storedText kv.2)) = resubmittedRow now host job r := by
    intro r
    simp only [resubmitTuple, List.map_cons, List.map_nil, hp, Row.assign, List.foldl_cons,
      List.foldl_nil, Row.set, resubmittedRow]
    rfl
  cases hc : job.command with
  | none => simp [resubmit, hc]
  | some c => simp [resubmit, hc, hread, hassign]

/-! ## `update` -/

/-- A job an update is asked for: by its jid, or by the word for its state. -/
inductive Target
  | jid (n : Nat)
  | pending
  | holding
deriving DecidableEq, Repr

/-- The lines of a text: `^` and `$` of a Ruby regex are anchors of lines. -/
def lines (s : Text) : List Text := s.splitOn '\n'

/-- Some line starts with the letter `c`, in either case: `%r/^c/io`. -/
def lineStarts (c : Char) (s : Text) : Bool :=
  (lines s).any fun l => l.head?.any fun d => d.toLower == c

/-- The state an update may set: `p…` is pending, `h…` is holding. -/
def mungeState (s : String) : Except String String :=
  if lineStarts 'p' s.toList then .ok "pending"
  else if lineStarts 'h' s.toList then .ok "holding"
  else .error "update of <state> not allowed (try pending or holding)"

/-- One pair of `kvs` after validation: `priority command tag runner restartable`, and a state that
    can be munged. -/
def validPair (kv : String × Option String) : Except String (Column × Option String) :=
  match Column.ofName kv.1, kv.2 with
  | some .state, some v => (mungeState v).map fun w => (.state, some w)
  | some .priority, v => .ok (.priority, v)
  | some .command, v => .ok (.command, v)
  | some .tag, v => .ok (.tag, v)
  | some .runner, v => .ok (.runner, v)
  | some .restartable, v => .ok (.restartable, v)
  | _, _ => .error "update not allowed"

/-- `kvs` without the keys `stdin` and `data`, validated. -/
def validPairs (kvs : List (String × Option String)) : Except String (List (Column × Option String)) :=
  (kvs.filter fun kv => kv.1 != "stdin" && kv.1 != "data").mapM validPair

/-- `update_clause`: the values are spliced in as they are. -/
def updateSet (kvs : List (Column × Option String)) : Text :=
  joinSet ['\n'] (kvs.map fun kv =>
    (kv.1.name.toList, match kv.2 with
      | some v => '\'' :: (v.toList ++ ['\''])
      | none => ['N', 'U', 'L', 'L']))

/-- The jids of the rows in state `word`: `select jid from jobs where state='word'`. -/
def jidsIn (word : String) (db : Jobs) : List Nat :=
  (db.rows.filter fun r => eqLit r.state word).map Row.jid

/-- The jid list after `build_sql` has expanded the two words. -/
def expandTargets (targets : List Target) (db : Jobs) : List Nat :=
  targets.filterMap (fun
    | .jid n => some n
    | _ => none)
    ++ (if .pending ∈ targets then jidsIn "pending" db else [])
    ++ (if .holding ∈ targets then jidsIn "holding" db else [])

theorem mem_expandTargets {targets : List Target} {db : Jobs} {n : Nat} :
    n ∈ expandTargets targets db ↔
      .jid n ∈ targets ∨ (.pending ∈ targets ∧ n ∈ jidsIn "pending" db) ∨
        (.holding ∈ targets ∧ n ∈ jidsIn "holding" db) := by
  unfold expandTargets
  rw [List.mem_append, List.mem_append, or_assoc]
  refine or_congr ?_ (or_congr ?_ ?_)
  · rw [List.mem_filterMap]
    constructor
    · rintro ⟨t, ht, hn⟩
      cases t with
      | jid m =>
        obtain rfl := Option.some.inj hn
        exact ht
      | pending => cases hn
      | holding => cases hn
    · intro h
      exact ⟨_, h, rfl⟩
  · split <;> simp [*]
  · split <;> simp [*]

/-- `(state='pending' or state='holding') and (jid=… or …)`. -/
def updatable (jids : List Nat) (r : Row) : Bool :=
  (eqLit r.state "pending" || eqLit r.state "holding") && jids.contains r.jid

/-- SQLite on a statement whose text the model does not parse. -/
abbrev OtherSql := Text → Jobs → Except String Jobs

/-- `JobQueue#update`. -/
def update (sqlite : OtherSql) (kvs : List (String × Option String)) (targets : List Target)
    (db : Jobs) : Except String Jobs := do
  let kvs ← validPairs kvs
  if targets.isEmpty then .error "no jobs to update"
  let jids := expandTargets targets db
  if jids.isEmpty then .error "no jobs to update"
  if kvs.isEmpty then .ok db
  else
    match assignments (updateSet kvs) with
    | some as => .ok (db.update (updatable jids) (·.assign as))
    | none => sqlite (updateSet kvs) db

/-- No value carries a quote. -/
def QuoteFree (kvs : List (String × Option String)) : Prop :=
  ∀ kv ∈ kvs, ∀ v ∈ kv.2, '\'' ∉ v.toList

/-- A value that passes validation is the one given, or one of the two state words. -/
theorem validPair_value {kv : String × Option String} {cv : Column × Option String}
    (h : validPair kv = .ok cv) :
    (cv.1 ∈ [Column.priority, .command, .tag, .runner, .restartable] ∧ cv.2 = kv.2) ∨
    (cv = (.state, some "pending") ∨ cv = (.state, some "holding")) := by
  unfold validPair at h
  split at h
  · right
    unfold mungeState at h
    split at h
    · left; simpa [Except.map] using h.symm
    · split at h
      · right; simpa [Except.map] using h.symm
      · simp [Except.map] at h
  all_goals first
    | (left; injection h with h; subst h; simp_all)
    | cases h

/-- The columns that record a run of the job are the same. -/
structure SameRun (r s : Row) : Prop where
  started : s.started = r.started
  finished : s.finished = r.finished
  elapsed : s.elapsed = r.elapsed
  pid : s.pid = r.pid
  exitStatus : s.exitStatus = r.exitStatus
  stdout : s.stdout = r.stdout
  stderr : s.stderr = r.stderr

theorem SameRun.refl (r : Row) : SameRun r r := ⟨rfl, rfl, rfl, rfl, rfl, rfl, rfl⟩

theorem SameRun.trans {r s t : Row} (h : SameRun r s) (k : SameRun s t) : SameRun r t :=
  ⟨k.started.trans h.started, k.finished.trans h.finished, k.elapsed.trans h.elapsed,
    k.pid.trans h.pid, k.exitStatus.trans h.exitStatus, k.stdout.trans h.stdout,
    k.stderr.trans h.stderr⟩

/-- Assignments an update can make: no column that records a run, and only two states. -/
def Updates (kvs : List (Column × Option String)) : Prop :=
  ∀ cv ∈ kvs, cv.1 ∈ [Column.priority, .command, .tag, .runner, .restartable] ∨
    cv = (.state, some "pending") ∨ cv = (.state, some "holding")

/-- What such assignments leave of a pending or holding row: its record of runs, and a state that
    is pending or holding.  Induction on the assignments. -/
theorem assign_updates {kvs : List (Column × Option String)} (h : Updates kvs) : ∀ r : Row,
    SameRun r (r.assign kvs) ∧ (r.assign kvs).jid = r.jid ∧
      (r.state = some "pending" ∨ r.state = some "holding" →
        (r.assign kvs).state = some "pending" ∨ (r.assign kvs).state = some "holding") := by
  induction kvs with
  | nil => exact fun r => ⟨SameRun.refl r, rfl, id⟩
  | cons cv kvs ih =>
    intro r
    obtain ⟨c, v⟩ := cv
    have hset : SameRun r (r.set v c) ∧ (r.set v c).jid = r.jid ∧
        (r.state = some "pending" ∨ r.state = some "holding" →
          (r.set v c).state = some "pending" ∨ (r.set v c).state = some "holding") := by
      rcases h (c, v) List.mem_cons_self with hc | hc | hc
      · simp only [List.mem_cons, List.not_mem_nil, or_false] at hc
        rcases hc with rfl | rfl | rfl | rfl | rfl <;>
          exact ⟨⟨rfl, rfl, rfl, rfl, rfl, rfl, rfl⟩, rfl, id⟩
      · cases hc; exact ⟨⟨rfl, rfl, rfl, rfl, rfl, rfl, rfl⟩, rfl, fun _ => Or.inl rfl⟩
      · cases hc; exact ⟨⟨rfl, rfl, rfl, rfl, rfl, rfl, rfl⟩, rfl, fun _ => Or.inr rfl⟩
    obtain ⟨hrun, hjid, hstate⟩ := ih (fun cv hcv => h cv (List.mem_cons_of_mem _ hcv)) (r.set v c)
    exact ⟨hset.1.trans hrun, hjid.trans hset.2.1, fun hr => hstate (hset.2.2 hr)⟩

theorem validPairs_updates {kvs : List (String × Option String)}
    {as : List (Column × Option String)} (h : validPairs kvs = .ok as) :
    Updates as ∧ (QuoteFree kvs → ∀ cv ∈ as, ∀ v ∈ cv.2, '\'' ∉ v.toList) := by
  have hmem : ∀ cv ∈ as, ∃ kv ∈ kvs, validPair kv = .ok cv := by
    intro cv hcv
    obtain ⟨kv, hkv, hok⟩ := exists_of_mapM_ok h hcv
    exact ⟨kv, List.mem_of_mem_filter hkv, hok⟩
  constructor
  · intro cv hcv
    obtain ⟨kv, -, hok⟩ := hmem cv hcv
    rcases validPair_value hok with ⟨hc, -⟩ | hc
    · exact Or.inl hc
    · exact Or.inr hc
  · intro hq cv hcv v hv
    obtain ⟨kv, hkv, hok⟩ := hmem cv hcv
    rcases validPair_value hok with ⟨-, hc⟩ | rfl | rfl
    · exact hq kv hkv v (hc ▸ hv)
    · obtain rfl : "pending" = v := by simpa using hv
      decide
    · obtain rfl : "holding" = v := by simpa using hv
      decide

/-- What SQLite makes of values whose quotes are paired. -/
def readBack (kvs : List (Column × Option String)) : List (Column × Option String) :=
  kvs.map fun kv => (kv.1, kv.2.map fun v => String.ofList (halve v.toList))

theorem assignments_updateSet {kvs : List (Column × Option String)} (hne : kvs ≠ [])
    (hq : ∀ cv ∈ kvs, ∀ v ∈ cv.2, Paired v.toList) :
    assignments (updateSet kvs) = some (readBack kvs) := by
  have h := @assignments_joinSet ['\n'] (by simp [isBlank])
    (kvs.map fun kv => (kv.1, (match kv.2 with
      | some v => '\'' :: (v.toList ++ ['\''])
      | none => ['N', 'U', 'L', 'L']), kv.2.map fun v => halve v.toList)) (by simpa using hne)
    (by
      intro kv hkv
      obtain ⟨⟨c, v⟩, hcv, rfl⟩ := List.mem_map.mp hkv
      cases v with
      | none => exact readsAs_null
      | some v => exact readsAs_paired (hq _ hcv v rfl))
  simpa [updateSet, readBack, Function.comp_def] using h

/-- Quote-free values are assigned as they are. -/
theorem readBack_eq_self {kvs : List (Column × Option String)}
    (hq : ∀ cv ∈ kvs, ∀ v ∈ cv.2, '\'' ∉ v.toList) : readBack kvs = kvs := by
  refine (List.map_congr_left fun cv hcv => ?_).trans (List.map_id _)
  obtain ⟨c, v⟩ := cv
  cases v with
  | none => rfl
  | some v =>
    have hv : '\'' ∉ v.toList := hq _ hcv v rfl
    have hhalve := (paired_of_not_mem hv).halve_eq_self_iff.mpr hv
    simp [hhalve]

/-- **The spec of `update` on values with paired quotes**: it makes the assignments that passed
    validation, as SQLite reads them, in the pending and holding rows it is asked for. -/
theorem update_reads {sqlite : OtherSql} {kvs : List (String × Option String)}
    {as : List (Column × Option String)} {targets : List Target} {db db' : Jobs}
    (hv : validPairs kvs = .ok as) (hq : ∀ cv ∈ as, ∀ v ∈ cv.2, Paired v.toList)
    (h : update sqlite kvs targets db = .ok db') :
    db' = db.update (updatable (expandTargets targets db)) (·.assign (readBack as)) := by
  unfold update at h
  rw [hv] at h
  simp only [bind, Except.bind] at h
  split at h
  · cases h
  split at h
  · cases h
  split at h
  · rename_i hnil
    obtain rfl : as = [] := by simpa using hnil
    injection h with h
    rw [← h]
    ext1
    simp [Jobs.update, readBack, Row.assign, setWhere_id]
  · rename_i hne
    rw [assignments_updateSet (by simpa using hne) hq] at h
    simpa using h.symm

/-- **The spec of `update` on quote-free values**: it makes the assignments that passed validation,
    in the pending and holding rows it is asked for. -/
theorem update_assigns {sqlite : OtherSql} {kvs : List (String × Option String)}
    {targets : List Target} {db db' : Jobs} (hq : QuoteFree kvs)
    (h : update sqlite kvs targets db = .ok db') :
    ∃ as jids, validPairs kvs = .ok as ∧ db' = db.update (updatable jids) (·.assign as) := by
  cases hv : validPairs kvs with
  | error e =>
    unfold update at h
    rw [hv] at h
    cases h
  | ok as =>
    have hplain := (validPairs_updates hv).2 hq
    have hdb' := update_reads hv (fun cv hcv v hcv' => paired_of_not_mem (hplain cv hcv v hcv')) h
    rw [readBack_eq_self hplain] at hdb'
    exact ⟨as, _, rfl, hdb'⟩

/-- It sets no column that records a run, and no state but two. -/
theorem update_ok {sqlite : OtherSql} {kvs : List (String × Option String)}
    {targets : List Target} {db db' : Jobs} (hq : QuoteFree kvs)
    (h : update sqlite kvs targets db = .ok db') :
    ∃ as jids, Updates as ∧ db' = db.update (updatable jids) (·.assign as) := by
  obtain ⟨as, jids, hv, hdb'⟩ := update_assigns hq h
  exact ⟨as, jids, (validPairs_updates hv).1, hdb'⟩

/-! ## `delete` -/

/-- A line without its outer blanks: `^\s*` and `\s*$` of a Ruby regex. -/
def strip (l : Text) : Text := ((l.dropWhile isBlank).reverse.dropWhile isBlank).reverse

/-- `String#strip`, which takes vertical tabs as well, and NULs at the end. -/
def stripText (l : Text) : Text :=
  (l.dropWhile fun c => isBlank c || c == '\x0b').rdropWhile
    fun c => isBlank c || c == '\x0b' || c == '\x00'

/-- Digits and nothing else. -/
def allDigits (l : Text) : Bool := !l.isEmpty && l.all Char.isDigit

/-- A jid as it is printed. -/
theorem allDigits_toString (n : Nat) : allDigits (toString n).toList = true := by
  unfold allDigits
  rw [Bool.and_eq_true, List.all_eq_true]
  exact ⟨by simp, fun c hc => isDigit_of_mem_toString hc⟩

/-- Digits are a line by themselves. -/
theorem lines_digits {l : Text} (h : allDigits l = true) : lines l = [l] := by
  refine List.splitOn_eq_singleton fun hnl => ?_
  exact absurd (List.all_eq_true.mp (Bool.and_eq_true_iff.mp h).2 _ hnl) (by decide)

/-- Nothing in them is taken off at an end. -/
theorem dropWhile_digits {p : Char → Bool} (hp : ∀ c : Char, c.isDigit = true → p c = false) {l : Text}
    (h : ∀ c ∈ l, c.isDigit = true) : l.dropWhile p = l := by
  cases l with
  | nil => rfl
  | cons c l => exact List.dropWhile_cons_of_neg (by simp [hp c (h c List.mem_cons_self)])

theorem strip_digits {l : Text} (h : allDigits l = true) : strip l = l := by
  have hdigit := List.all_eq_true.mp (Bool.and_eq_true_iff.mp h).2
  unfold strip
  rw [dropWhile_digits (fun _ => isBlank_of_isDigit) hdigit,
    dropWhile_digits (fun _ => isBlank_of_isDigit) fun c hc => hdigit c (List.mem_reverse.mp hc),
    List.reverse_reverse]

/-- What one argument of `delete` designates. -/
inductive Designation
  | jid (n : Nat)
  | word (w : String)
  | all
  | nothing
  | text (t : Text)
deriving DecidableEq, Repr

/-- Some line starts with the letter `c` after blanks, in either case: `%r/^\s*c/io`. -/
def letterStarts (c : Char) (s : Text) : Bool :=
  (lines s).any fun l => (l.dropWhile isBlank).head?.any (·.toLower == c)

/-- The `case` over an argument.  A number on one of its lines is enough for the first branch, which
    splices the WHOLE argument into `jid=…`. -/
def designate (force : Bool) (what : String) : Except String Designation :=
  let s := what.toList
  if (lines s).any (fun l => allDigits (strip l)) then
    .ok (if allDigits (strip s) then .jid (digitsValue (strip s)) else .text s)
  else if letterStarts 'p' s then .ok (.word "pending")
  else if letterStarts 'h' s then .ok (.word "holding")
  else if letterStarts 'r' s then .ok (if force then .word "running" else .nothing)
  else if letterStarts 'f' s then .ok (.word "finished")
  else if letterStarts 'd' s then .ok (.word "dead")
  else if letterStarts 'a' s then .ok .all
  else .error "cannot delete"

/-- The `where` clause of a designation. -/
def Designation.selects (r : Row) : Designation → Bool
  | .jid n => r.jid == n && neLit r.state "running"
  | .word w => eqLit r.state w
  | .all => neLit r.state "running"
  | .nothing => false
  | .text _ => false

/-- `JobQueue#delete`: one `delete` statement for each argument, run in one go. -/
def delete (sqlite : OtherSql) (force : Bool) (whats : List String) (db : Jobs) :
    Except String Jobs := do
  let ds ← (if whats.isEmpty then ["all"] else whats).mapM (designate force)
  match ds.findSome? (fun | .text t => some t | _ => none) with
  | some t => sqlite t db
  | none => .ok (ds.foldl (fun db d => db.delete (d.selects ·)) db)

/-- An argument whose number, if it has one, is all there is. -/
def PlainArg (what : String) : Prop := ∀ t, designate false what ≠ .ok (.text t)

theorem designate_word {what w : String} (h : designate false what = .ok (.word w)) :
    w = "pending" ∨ w = "holding" ∨ w = "finished" ∨ w = "dead" := by
  revert h
  unfold designate
  simp only
  split
  · split <;> simp
  repeat' (split; · simp +contextual [eq_comm])
  simp

/-- Without `force` no statement selects a running row. -/
theorem selects_not_running {what : String} {d : Designation} (h : designate false what = .ok d)
    {r : Row} (hs : d.selects r = true) : r.state ≠ some "running" := by
  cases d with
  | jid n =>
    have hne : neLit r.state "running" = true := (Bool.and_eq_true_iff.mp hs).2
    exact (neLit_running.mp hne).2
  | all => exact (neLit_running.mp hs).2
  | word w =>
    have hw : eqLit r.state w = true := hs
    rcases designate_word h with rfl | rfl | rfl | rfl
    · rw [eqLit_word.1.mp hw]; decide
    · rw [eqLit_word.2.1.mp hw]; decide
    · rw [eqLit_word.2.2.2.1.mp hw]; decide
    · rw [eqLit_word.2.2.2.2.mp hw]; decide
  | nothing => cases hs
  | text t => cases hs

theorem mem_foldl_delete {ds : List Designation} : ∀ {db : Jobs} {r : Row},
    r ∈ ds.foldl (fun db d => db.delete (d.selects ·)) db ↔
      r ∈ db ∧ ∀ d ∈ ds, d.selects r = false := by
  induction ds with
  | nil => intro db r; simp
  | cons d ds ih =>
    intro db r
    rw [List.foldl_cons, ih, Jobs.mem_delete, List.forall_mem_cons, and_assoc]

/-- The text of an argument is spliced in with `force` as without. -/
theorem designate_text {force : Bool} {what : String} {t : Text}
    (h : designate force what = .ok (.text t)) : designate false what = .ok (.text t) := by
  unfold designate at h ⊢
  simp only at h ⊢
  split
  · rename_i hnum
    rw [if_pos hnum] at h
    exact h
  · rename_i hnum
    rw [if_neg hnum] at h
    exfalso
    cases force <;> revert h <;> repeat' (split; · simp)
    all_goals simp

/-- **The spec of `delete` on plain arguments**: their statements, one after the other. -/
theorem delete_eq {sqlite : OtherSql} {force : Bool} {whats : List String} {db : Jobs}
    {ds : List Designation} (hp : ∀ what ∈ whats, PlainArg what)
    (hds : (if whats.isEmpty then ["all"] else whats).mapM (designate force) = .ok ds) :
    delete sqlite force whats db = .ok (ds.foldl (fun db d => db.delete (d.selects ·)) db) := by
  have hplain : ∀ what ∈ (if whats.isEmpty then ["all"] else whats), PlainArg what := by
    intro what hwhat
    split at hwhat
    · obtain rfl : what = "all" := by simpa using hwhat
      have hall : designate false "all" = .ok .all := rfl
      intro t ht
      rw [hall] at ht
      cases ht
    · exact hp what hwhat
  have hnone : ds.findSome? (fun | .text t => some t | _ => none) = (none : Option Text) := by
    rw [List.findSome?_eq_none_iff]
    intro d hd
    obtain ⟨what, hwhat, hok⟩ := exists_of_mapM_ok hds hd
    cases d with
    | text t => exact absurd (designate_text hok) (hplain what hwhat t)
    | _ => rfl
  unfold delete
  rw [hds]
  simp only [bind, Except.bind, hnone]

theorem delete_plain {sqlite : OtherSql} {force : Bool} {whats : List String} {db db' : Jobs}
    (hp : ∀ what ∈ whats, PlainArg what) (h : delete sqlite force whats db = .ok db') :
    ∃ ds, (if whats.isEmpty then ["all"] else whats).mapM (designate force) = .ok ds ∧
      db' = ds.foldl (fun db d => db.delete (d.selects ·)) db := by
  cases hds : (if whats.isEmpty then ["all"] else whats).mapM (designate force) with
  | error e =>
    unfold delete at h
    rw [hds] at h
    cases h
  | ok ds =>
    rw [delete_eq hp hds] at h
    exact ⟨ds, rfl, (Except.ok.inj h).symm⟩

/-- Whatever they are, rows only go. -/
theorem delete_subset {sqlite : OtherSql} {force : Bool} {whats : List String} {db db' : Jobs}
    (hp : ∀ what ∈ whats, PlainArg what) (h : delete sqlite force whats db = .ok db') :
    ∀ r ∈ db', r ∈ db := by
  obtain ⟨ds, -, rfl⟩ := delete_plain hp h
  exact fun r hr => (mem_foldl_delete.mp hr).1

/-- Without force, no running row goes. -/
theorem delete_ok {sqlite : OtherSql} {whats : List String} {db db' : Jobs}
    (hp : ∀ what ∈ whats, PlainArg what) (h : delete sqlite false whats db = .ok db') :
    (∀ r ∈ db', r ∈ db) ∧ (∀ r ∈ db, r ∉ db' → r.state ≠ some "running") := by
  refine ⟨delete_subset hp h, fun r hr hnot => ?_⟩
  obtain ⟨ds, hds, rfl⟩ := delete_plain hp h
  have hsel : ∃ d ∈ ds, d.selects r = true := by
    by_contra hno
    refine hnot (mem_foldl_delete.mpr ⟨hr, fun d hd => ?_⟩)
    rw [← Bool.not_eq_true]
    exact fun ht => hno ⟨d, hd, ht⟩
  obtain ⟨d, hd, ht⟩ := hsel
  obtain ⟨what, -, hok⟩ := exists_of_mapM_ok hds hd
  exact selects_not_running hok ht

end RubyQueue.JobQueue
