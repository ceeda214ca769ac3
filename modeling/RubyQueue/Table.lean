/-
  The `jobs` table: its rows, its key, and the four statements made on it.

  A row has the eighteen columns of `QDB::FIELDS`; all but the key are typeless, so a value is text
  or NULL — the state included: that it is always one of five words is something to PROVE, not a
  type.  `Jobs` carries the primary key as an invariant (rows in strictly increasing jid order), so
  a table with a repeated jid cannot be written down.
-/
import Mathlib.Data.List.Nodup
import RubyQueue.Sqlite
import RubyQueue.Quote

namespace RubyQueue.JobQueue

open RubyQueue.Sqlite RubyQueue.Quote

/-! ## Rows and tables -/

/-- One row, in the order of `QDB::FIELDS`. -/
structure Row where
  jid : Nat
  priority : Option String
  state : Option String
  submitted : Option String
  started : Option String
  finished : Option String
  elapsed : Option String
  submitter : Option String
  runner : Option String
  stdin : Option String
  stdout : Option String
  stderr : Option String
  data : Option String
  pid : Option String
  exitStatus : Option String
  tag : Option String
  restartable : Option String
  command : Option String
deriving DecidableEq, Repr

/-- The columns a statement of this code can set; `jid` is never set. -/
inductive Column
  | priority | state | submitted | started | finished | elapsed | submitter | runner
  | stdin | stdout | stderr | data | pid | exitStatus | tag | restartable | command
deriving DecidableEq, Repr

/-- The name a column has in the schema. -/
def Column.name : Column → String
  | .priority => "priority"
  | .state => "state"
  | .submitted => "submitted"
  | .started => "started"
  | .finished => "finished"
  | .elapsed => "elapsed"
  | .submitter => "submitter"
  | .runner => "runner"
  | .stdin => "stdin"
  | .stdout => "stdout"
  | .stderr => "stderr"
  | .data => "data"
  | .pid => "pid"
  | .exitStatus => "exit_status"
  | .tag => "tag"
  | .restartable => "restartable"
  | .command => "command"

/-- `QDB::FIELDS` without the key. -/
def columns : List Column :=
  [.priority, .state, .submitted, .started, .finished, .elapsed, .submitter, .runner, .stdin,
   .stdout, .stderr, .data, .pid, .exitStatus, .tag, .restartable, .command]

/-- A column by its name. -/
def Column.ofName (name : String) : Option Column := columns.find? fun c => c.name == name

@[simp] theorem Column.ofName_name (c : Column) : Column.ofName c.name = some c := by
  cases c <;> decide

/-- A column name is a name: not empty, and of name characters only. -/
theorem Column.name_isNameChar (c : Column) :
    c.name.toList ≠ [] ∧ ∀ d ∈ c.name.toList, isNameChar d = true := by
  have hne : c.name.toList.isEmpty = false := by cases c <;> rfl
  have hall : c.name.toList.all isNameChar = true := by cases c <;> rfl
  exact ⟨by simpa using hne, List.all_eq_true.mp hall⟩

/-- Assign one column. -/
def Row.set (r : Row) (v : Option String) : Column → Row
  | .priority => { r with priority := v }
  | .state => { r with state := v }
  | .submitted => { r with submitted := v }
  | .started => { r with started := v }
  | .finished => { r with finished := v }
  | .elapsed => { r with elapsed := v }
  | .submitter => { r with submitter := v }
  | .runner => { r with runner := v }
  | .stdin => { r with stdin := v }
  | .stdout => { r with stdout := v }
  | .stderr => { r with stderr := v }
  | .data => { r with data := v }
  | .pid => { r with pid := v }
  | .exitStatus => { r with exitStatus := v }
  | .tag => { r with tag := v }
  | .restartable => { r with restartable := v }
  | .command => { r with command := v }

/-- The value of one column. -/
def Row.get (r : Row) : Column → Option String
  | .priority => r.priority
  | .state => r.state
  | .submitted => r.submitted
  | .started => r.started
  | .finished => r.finished
  | .elapsed => r.elapsed
  | .submitter => r.submitter
  | .runner => r.runner
  | .stdin => r.stdin
  | .stdout => r.stdout
  | .stderr => r.stderr
  | .data => r.data
  | .pid => r.pid
  | .exitStatus => r.exitStatus
  | .tag => r.tag
  | .restartable => r.restartable
  | .command => r.command

@[simp] theorem Row.get_set (r : Row) (v : Option String) (c d : Column) :
    (r.set v c).get d = if d = c then v else r.get d := by
  cases c <;> cases d <;> rfl

@[simp] theorem Row.set_jid (r : Row) (v : Option String) (c : Column) : (r.set v c).jid = r.jid := by
  cases c <;> rfl

/-- A row is its key and its columns. -/
theorem Row.ext_get {r s : Row} (hjid : r.jid = s.jid) (h : ∀ c, r.get c = s.get c) : r = s := by
  have hpriority := h .priority
  have hstate := h .state
  have hsubmitted := h .submitted
  have hstarted := h .started
  have hfinished := h .finished
  have helapsed := h .elapsed
  have hsubmitter := h .submitter
  have hrunner := h .runner
  have hstdin := h .stdin
  have hstdout := h .stdout
  have hstderr := h .stderr
  have hdata := h .data
  have hpid := h .pid
  have hexit := h .exitStatus
  have htag := h .tag
  have hrestartable := h .restartable
  have hcommand := h .command
  cases r
  cases s
  simp only [Row.get] at *
  simp_all

/-- The `jobs` table: its rows, in key order. -/
@[ext]
structure Jobs where
  rows : List Row
  sorted : rows.Pairwise fun r s => r.jid < s.jid
deriving DecidableEq

instance : Membership Row Jobs := ⟨fun db r => r ∈ db.rows⟩

theorem Jobs.mem_def {db : Jobs} {r : Row} : r ∈ db ↔ r ∈ db.rows := Iff.rfl

instance (r : Row) (db : Jobs) : Decidable (r ∈ db) := inferInstanceAs (Decidable (r ∈ db.rows))

/-- A freshly created queue. -/
def Jobs.empty : Jobs := ⟨[], List.Pairwise.nil⟩

/-- `select max(jid) from jobs`, 0 for an empty table. -/
def Jobs.maxJid (db : Jobs) : Nat := db.rows.foldr (fun r m => max r.jid m) 0

theorem Jobs.jid_le_maxJid {db : Jobs} {r : Row} (h : r ∈ db) : r.jid ≤ db.maxJid := by
  have key : ∀ rows : List Row, r ∈ rows → r.jid ≤ rows.foldr (fun r m => max r.jid m) 0 := by
    intro rows
    induction rows with
    | nil => intro h; cases h
    | cons s rows ih =>
      intro h
      rcases List.mem_cons.mp h with rfl | h
      · exact Nat.le_max_left _ _
      · exact Nat.le_trans (ih h) (Nat.le_max_right _ _)
  exact key db.rows h

/-- The key determines the row. -/
theorem Jobs.eq_of_jid {db : Jobs} {r s : Row} (hr : r ∈ db) (hs : s ∈ db)
    (h : r.jid = s.jid) : r = s := by
  have hnodup : (db.rows.map Row.jid).Nodup :=
    (List.pairwise_map.mpr db.sorted).imp fun hlt => Nat.ne_of_lt hlt
  exact List.inj_on_of_nodup_map hnodup hr hs h

/-- `insert into jobs values (NULL, …)`: SQLite gives the row the next jid.  (There are fewer than 2^31
    of them; behind that it looks for a free one at random.) -/
def Jobs.insert (db : Jobs) (r : Row) : Jobs where
  rows := db.rows ++ [{ r with jid := db.maxJid + 1 }]
  sorted := by
    rw [List.pairwise_append]
    refine ⟨db.sorted, List.pairwise_singleton _ _, ?_⟩
    intro s hs t ht
    have hle : s.jid ≤ db.maxJid := Jobs.jid_le_maxJid hs
    rw [List.mem_singleton.mp ht]
    exact Nat.lt_succ_of_le hle

theorem Jobs.mem_insert {db : Jobs} {r s : Row} :
    s ∈ db.insert r ↔ s ∈ db ∨ s = { r with jid := db.maxJid + 1 } := by
  simp [Jobs.mem_def, Jobs.insert]

theorem Jobs.maxJid_insert (db : Jobs) (r : Row) : (db.insert r).maxJid = db.maxJid + 1 := by
  have key : ∀ (rows : List Row) (s : Row),
      (rows ++ [s]).foldr (fun r m => max r.jid m) 0
        = max (rows.foldr (fun r m => max r.jid m) 0) s.jid := by
    intro rows s
    induction rows with
    | nil => simp
    | cons t rows ih => simp only [List.cons_append, List.foldr_cons, ih]; omega
  show (db.rows ++ [{ r with jid := db.maxJid + 1 }]).foldr (fun (r : Row) m => max r.jid m) 0 = _
  rw [key]
  show max db.maxJid (db.maxJid + 1) = _
  omega

/-- One row under `update … set f where p`. -/
def setWhere (p : Row → Bool) (f : Row → Row) (r : Row) : Row :=
  if p r then { f r with jid := r.jid } else r

@[simp] theorem setWhere_jid (p : Row → Bool) (f : Row → Row) (r : Row) :
    (setWhere p f r).jid = r.jid := by
  unfold setWhere; split <;> rfl

theorem setWhere_id (p : Row → Bool) : setWhere p (fun r => r) = id := by
  funext r
  unfold setWhere
  split <;> rfl

/-- `update jobs set … where p`. -/
def Jobs.update (db : Jobs) (p : Row → Bool) (f : Row → Row) : Jobs where
  rows := db.rows.map (setWhere p f)
  sorted := by
    rw [List.pairwise_map]
    exact db.sorted.imp fun h => by simpa using h

theorem Jobs.mem_update {db : Jobs} {p : Row → Bool} {f : Row → Row} {s : Row} :
    s ∈ db.update p f ↔ ∃ r ∈ db, setWhere p f r = s := by
  simp [Jobs.mem_def, Jobs.update]

/-- `delete from jobs where p`. -/
def Jobs.delete (db : Jobs) (p : Row → Bool) : Jobs where
  rows := db.rows.filter fun r => !p r
  sorted := db.sorted.sublist List.filter_sublist

theorem Jobs.mem_delete {db : Jobs} {p : Row → Bool} {s : Row} :
    s ∈ db.delete p ↔ s ∈ db ∧ p s = false := by
  simp [Jobs.mem_def, Jobs.delete]

/-! ## The words for a state -/

/-- The words a state test compares with are no numerals, so the test is equality of text. -/
@[simp] theorem eqLit_word {col : Option String} :
    (eqLit col "pending" = true ↔ col = some "pending") ∧
    (eqLit col "holding" = true ↔ col = some "holding") ∧
    (eqLit col "running" = true ↔ col = some "running") ∧
    (eqLit col "finished" = true ↔ col = some "finished") ∧
    (eqLit col "dead" = true ↔ col = some "dead") :=
  ⟨eqLit_iff (by decide), eqLit_iff (by decide), eqLit_iff (by decide), eqLit_iff (by decide),
    eqLit_iff (by decide)⟩

theorem neLit_running {col : Option String} :
    neLit col "running" = true ↔ col ≠ none ∧ col ≠ some "running" :=
  neLit_iff (by decide)

end RubyQueue.JobQueue
