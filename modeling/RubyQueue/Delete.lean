/-
  Does a deletion remove what was asked for, and say so once?

  `JobQueue#delete` writes two scripts, a `select` and a `delete` statement for each argument, and
  runs them one after the other in a transaction.  Each tuple the `select`s bring is handed to the
  caller (to its block, or in the list returned) and its files are removed.

  Three things get in the way.  An argument with a number on ONE of its lines is spliced in whole,
  and an `or` on another line takes the test for running jobs apart.  A job that two arguments mean
  is selected twice, since nothing is deleted before the second `select`.  And what a failed attempt
  has handed out stays handed out.  `delete_exact` has the exact condition for arguments that are
  numbers or words.
-/
import RubyQueue.Rotation

namespace RubyQueue.Delete

open RubyQueue.Sqlite RubyQueue.Quote RubyQueue.JobQueue RubyQueue.Qdb RubyQueue.Raise
open RubyQueue.Rotation (Files)

/-! ## The two scripts -/

/-- The arguments with what they designate; no argument is `all`. -/
def designations (force : Bool) (whats : List String) :
    Except String (List (String × Designation)) :=
  (if whats.isEmpty then ["all"] else whats).mapM fun what =>
    (designate force what).map fun d => (what, d)

/-- The `where` clause of one argument, when it writes a statement. -/
def clause : String × Designation → Option Text
  | (what, .jid _) => some ("jid=".toList ++ what.toList ++ " and state!='running'".toList)
  | (what, .text _) => some ("jid=".toList ++ what.toList ++ " and state!='running'".toList)
  | (_, .word w) => some ("state='".toList ++ w.toList ++ ['\''])
  | (_, .all) => some "state!='running'".toList
  | (_, .nothing) => none

/-- `delete_sql` and `select_sql`, by what their statements start with. -/
def script (head : String) (ds : List (String × Designation)) : Text :=
  ds.flatMap fun d =>
    match clause d with
    | some c => head.toList ++ c ++ ";\n".toList
    | none => []

/-- SQLite on a script the model does not parse: the table and the tuples it comes to. -/
abbrev Exec := Text → Jobs → (Jobs × List Row) × Option Err

/-- The argument is spliced in with more than its number. -/
def isText : Designation → Bool
  | .text _ => true
  | _ => false

/-- `execute(select_sql)`: every statement on the same table. -/
def selectRun (exec : Exec) (ds : List (String × Designation)) (db : Jobs) :
    (Jobs × List Row) × Option Err :=
  if ds.any (isText ·.2) then exec (script "select * from jobs where " ds) db
  else ((db, ds.flatMap fun d => db.rows.filter (d.2.selects ·)), none)

/-- `execute(delete_sql)`. -/
def deleteRun (exec : Exec) (ds : List (String × Designation)) (db : Jobs) : Jobs × Option Err :=
  if ds.any (isText ·.2) then
    let r := exec (script "delete from jobs where " ds) db
    (r.1.1, r.2)
  else (ds.foldl (fun db d => db.delete (d.2.selects ·)) db, none)

/-! ## The callback -/

/-- What a rollback does not restore: the files of the jobs, and what the caller has received. -/
structure Disk where
  files : Nat → Files
  received : List Row

/-- Where the block raises besides SQLite's own errors: in the `select`, after so many tuples; in
    the callback of the tuple after so many, when so many of its paths are removed; or in the
    `delete`. -/
inductive Stop
  | select (tuples : Nat)
  | callback (tuples paths : Nat)
  | delete
deriving DecidableEq, Repr

/-- The files of a job when the first `n` of `stdin`, `stdout`, `stderr` and `data` are removed. -/
def without (f : Files) (n : Nat) : Files where
  stdin := if 0 < n then none else f.stdin
  stdout := if 1 < n then none else f.stdout
  stderr := if 2 < n then none else f.stderr
  data := if 3 < n then none else f.data

/-- The tuples `scrub` gets to, each with how many of its paths it removes. -/
def scrubbed (stop : Option Stop) (rows : List Row) : List (Row × Nat) :=
  match stop with
  | some (.select n) => (rows.take n).map fun r => (r, 4)
  | some (.callback n paths) =>
    ((rows.take n).map fun r => (r, 4)) ++ (rows[n]?.toList.map fun r => (r, paths))
  | _ => rows.map fun r => (r, 4)

/-- The tuples the caller gets.  A block gets its tuple before `scrub` runs, the list after. -/
def delivered (given : Bool) (stop : Option Stop) (rows : List Row) : List Row :=
  match stop with
  | some (.select n) => rows.take n
  | some (.callback n _) => rows.take (if given then n + 1 else n)
  | _ => rows

/-- The callback on the tuples of the `select`; `given` says whether there is a block. -/
def Disk.after (given : Bool) (stop : Option Stop) (rows : List Row) (disk : Disk) : Disk where
  files := (scrubbed stop rows).foldl
    (fun files p => Function.update files p.1.jid (without (files p.1.jid) p.2)) disk.files
  received := disk.received ++ delivered given stop rows

/-- The block of `delete`. -/
def deleteBlock (exec : Exec) (given : Bool) (ds : List (String × Designation)) :
    Body Jobs Disk (Option Stop) := fun stop db disk =>
  let r := selectRun exec ds db
  let disk := disk.after given stop r.1.2
  match stop, r.2 with
  | some (.select _), _ => ((r.1.1, disk), some .standard)
  | some (.callback _ _), _ => ((r.1.1, disk), some .standard)
  | _, some e => ((r.1.1, disk), some e)
  | stop, none =>
    let d := deleteRun exec ds r.1.1
    ((d.1, disk), if stop = some .delete then some .standard else d.2)

/-- What the attempts before leave behind, each made on the table as it was then. -/
def leftBy (exec : Exec) (given : Bool) (ds : List (String × Designation))
    (earlier : List (Jobs × Option Stop)) (disk : Disk) : Disk :=
  earlier.foldl (fun disk a => (deleteBlock exec given ds a.2 a.1 disk).1.2) disk

/-- `JobQueue#delete` without force, when the attempts `earlier` have failed and the next one
    commits: the table, and what the caller has received. -/
def deleteCommits (exec : Exec) (given : Bool) (whats : List String)
    (earlier : List (Jobs × Option Stop)) (db : Jobs) (files : Nat → Files) :
    Except String (Jobs × List Row) := do
  let ds ← designations false whats
  let r := deleteBlock exec given ds none db (leftBy exec given ds earlier ⟨files, []⟩)
  match r.2 with
  | none => .ok (r.1.1, r.1.2.received)
  | some _ => .error "SQL error"

/-! ## What was asked -/

def stateWords : List String := ["pending", "holding", "running", "finished", "dead"]

/-- The argument is the word, or the beginning of it. -/
def abbreviates (what word : String) : Bool :=
  !what.isEmpty && what.toList.isPrefixOf word.toList

/-- A decimal number, or one of the words, perhaps abbreviated. -/
def IsDesignator (what : String) : Prop :=
  allDigits what.toList = true ∨ ∃ w ∈ "all" :: stateWords, abbreviates what w = true

/-- The argument means the row, by its jid or by its state. -/
def means (what : String) (r : Row) : Bool :=
  (allDigits what.toList && r.jid == digitsValue what.toList) || abbreviates what "all" ||
    stateWords.any fun w => abbreviates what w && r.state == some w

/-- No running row is removed. -/
def SparesRunning (db db' : Jobs) : Prop := ∀ r ∈ db, r ∉ db' → r.state ≠ some "running"

/-- The rows removed are the non-running rows that were meant, and each of them was received
    once. -/
structure Exact (whats : List String) (db db' : Jobs) (received : List Row) : Prop where
  subset : ∀ r ∈ db', r ∈ db
  removed : ∀ r ∈ db, r ∉ db' ↔ r.state ≠ some "running" ∧ ∃ what ∈ whats, means what r = true
  once : ∀ r ∈ db, r ∉ db' → received.countP (fun s => s.jid == r.jid) = 1

/-! ## What an argument selects -/

/-- Digits designate a job. -/
theorem designate_digits {force : Bool} {what : String} (h : allDigits what.toList = true) :
    designate force what = .ok (.jid (digitsValue what.toList)) := by
  unfold designate
  simp only [lines_digits h, strip_digits h, h, List.any_cons, Bool.true_or, if_true]

/-- The beginnings of a word are read as the word. -/
theorem designate_abbreviation {what w : String} (hw : w ∈ "all" :: stateWords)
    (h : abbreviates what w = true) :
    designate false what
      = .ok (if w = "all" then .all else if w = "running" then .nothing else .word w) := by
  have hall : ∀ w ∈ "all" :: stateWords, ∀ s ∈ w.toList.inits, s ≠ [] →
      designate false (String.ofList s) = .ok (if w = "all" then .all
        else if w = "running" then .nothing else .word w) := by
    decide
  obtain ⟨hne, hpre⟩ := Bool.and_eq_true_iff.mp h
  have hread := hall w hw what.toList (List.mem_inits _ _ |>.mpr (List.isPrefixOf_iff_prefix.mp hpre))
    (by simpa using hne)
  rwa [String.ofList_toList] at hread

/-- A beginning of a word starts with its letter. -/
theorem abbreviates_head {what w : String} (h : abbreviates what w = true) :
    what.toList.head? = w.toList.head? ∧ what.toList ≠ [] := by
  obtain ⟨hne, hpre⟩ := Bool.and_eq_true_iff.mp h
  have hne' : what.toList ≠ [] := by simpa using hne
  obtain ⟨t, ht⟩ := List.isPrefixOf_iff_prefix.mp hpre
  refine ⟨?_, hne'⟩
  rw [← ht, List.head?_append_of_ne_nil _ hne']

/-- No two of the words start with the same letter, and none with a digit. -/
theorem abbreviates_unique {what w : String} (hw : w ∈ "all" :: stateWords)
    (h : abbreviates what w = true) :
    allDigits what.toList = false ∧
      ∀ w' ∈ "all" :: stateWords, (abbreviates what w' = true ↔ w' = w) := by
  obtain ⟨hhead, hne⟩ := abbreviates_head h
  constructor
  · obtain ⟨c, s, hs⟩ := List.exists_cons_of_ne_nil hne
    have hletter : ∀ w ∈ "all" :: stateWords, w.toList.head?.all (!·.isDigit) = true := by decide
    have hc : c.isDigit = false := by
      have hfirst := hletter w hw
      rw [← hhead, hs] at hfirst
      simpa using hfirst
    simp [allDigits, hs, hc]
  · have hletters : ∀ w ∈ "all" :: stateWords, ∀ w' ∈ "all" :: stateWords,
        w'.toList.head? = w.toList.head? → w' = w := by decide
    intro w' hw'
    constructor
    · intro h'
      exact hletters w hw w' hw' ((abbreviates_head h').1.symm.trans hhead)
    · rintro rfl
      exact h

/-- **What a number or a word selects**: the rows it means that have a state and do not run. -/
theorem exists_designation {what : String} (h : IsDesignator what) :
    ∃ d, designate false what = .ok d ∧ isText d = false ∧
      ∀ r, d.selects r = true ↔
        means what r = true ∧ r.state ≠ none ∧ r.state ≠ some "running" := by
  rcases h with hdigits | ⟨w, hw, habb⟩
  · refine ⟨_, designate_digits hdigits, rfl, fun r => ?_⟩
    have hnot : ∀ w ∈ "all" :: stateWords, abbreviates what w = false := by
      intro w hw
      rw [← Bool.not_eq_true]
      intro habb
      rw [(abbreviates_unique hw habb).1] at hdigits
      cases hdigits
    have hany : (stateWords.any fun w => abbreviates what w && r.state == some w) = false := by
      rw [List.any_eq_false]
      intro w hw
      simp [hnot w (List.mem_cons_of_mem _ hw)]
    simp only [Designation.selects, means, hdigits, hnot "all" List.mem_cons_self, hany,
      Bool.and_eq_true, Bool.or_false, Bool.true_and, neLit_running]
  · refine ⟨_, designate_abbreviation hw habb, ?_, fun r => ?_⟩
    · split
      · rfl
      · split <;> rfl
    obtain ⟨hdigits, huniq⟩ := abbreviates_unique hw habb
    have hmeans : means what r = true ↔ w = "all" ∨ (w ∈ stateWords ∧ r.state = some w) := by
      unfold means
      rw [hdigits, Bool.false_and, Bool.false_or, Bool.or_eq_true, huniq _ List.mem_cons_self,
        List.any_eq_true]
      refine or_congr eq_comm ?_
      constructor
      · rintro ⟨w', hw', hboth⟩
        obtain ⟨habb', hstate⟩ := Bool.and_eq_true_iff.mp hboth
        obtain rfl := (huniq w' (List.mem_cons_of_mem _ hw')).mp habb'
        exact ⟨hw', by simpa using hstate⟩
      · rintro ⟨hw', hstate⟩
        exact ⟨w, hw', by simp [habb, hstate]⟩
    rw [hmeans]
    -- each word by its own test; the one for running jobs selects nothing
    have hword : ∀ w ∈ stateWords, w ≠ "running" → ((Designation.word w).selects r = true ↔
        (w = "all" ∨ (w ∈ stateWords ∧ r.state = some w)) ∧
          r.state ≠ none ∧ r.state ≠ some "running") := by
      intro w hw hrun
      have hall : w ≠ "all" := by
        rintro rfl
        revert hw
        decide
      have heq : eqLit r.state w = true ↔ r.state = some w := by
        simp only [stateWords, List.mem_cons, List.not_mem_nil, or_false] at hw
        rcases hw with rfl | rfl | rfl | rfl | rfl
        · exact eqLit_word.1
        · exact eqLit_word.2.1
        · exact eqLit_word.2.2.1
        · exact eqLit_word.2.2.2.1
        · exact eqLit_word.2.2.2.2
      show eqLit r.state w = true ↔ _
      rw [heq]
      constructor
      · intro hstate
        rw [hstate]
        exact ⟨Or.inr ⟨hw, rfl⟩, by simp, by simpa using hrun⟩
      · rintro ⟨h | h, -⟩
        · exact absurd h hall
        · exact h.2
    by_cases hall : w = "all"
    · subst hall
      simpa [Designation.selects] using neLit_running
    by_cases hrun : w = "running"
    · subst hrun
      simp +contextual [Designation.selects, stateWords]
    · rw [if_neg hall, if_neg hrun]
      exact hword w ((List.mem_cons.mp hw).resolve_left hall) hrun

theorem IsDesignator.plainArg {what : String} (h : IsDesignator what) : PlainArg what := by
  obtain ⟨d, hd, htext, -⟩ := exists_designation h
  intro t ht
  rw [ht] at hd
  obtain rfl := Except.ok.inj hd
  cases htext

/-! ## The attempt that commits -/

/-- What is designated, argument by argument. -/
theorem designations_forall₂ {force : Bool} {whats : List String}
    {ds : List (String × Designation)} (h : designations force whats = .ok ds) :
    List.Forall₂ (fun what d => designate force what = .ok d.2)
      (if whats.isEmpty then ["all"] else whats) ds := by
  refine (forall₂_of_mapM_ok h).imp fun what d hd => ?_
  cases hw : designate force what with
  | error e => rw [hw] at hd; cases hd
  | ok d' =>
    rw [hw] at hd
    obtain rfl := Except.ok.inj hd
    rfl

/-- Plain arguments make scripts the model reads. -/
theorem designations_plain {whats : List String} {ds : List (String × Designation)}
    (hp : ∀ what ∈ whats, PlainArg what) (h : designations false whats = .ok ds) :
    ds.any (isText ·.2) = false := by
  rw [List.any_eq_false]
  intro d hd
  obtain ⟨what, hwhat, hok⟩ := mem_of_forall₂ (designations_forall₂ h) hd
  have hplain : PlainArg what := by
    split at hwhat
    · obtain rfl : what = "all" := by simpa using hwhat
      exact IsDesignator.plainArg (Or.inr ⟨"all", by decide, by decide⟩)
    · exact hp what hwhat
  obtain ⟨what', d⟩ := d
  cases d with
  | text t => exact absurd hok (hplain t)
  | _ => simp [isText]

/-- A deletion that commits has made its deletions one after the other, and handed over what each
    argument selects of the table as it was. -/
theorem deleteCommits_reads {exec : Exec} {given : Bool} {whats : List String}
    {earlier : List (Jobs × Option Stop)} {db db' : Jobs} {files : Nat → Files}
    {received : List Row} (hp : ∀ what ∈ whats, PlainArg what)
    (h : deleteCommits exec given whats earlier db files = .ok (db', received)) :
    ∃ ds, designations false whats = .ok ds ∧
      db' = (ds.map Prod.snd).foldl (fun db d => db.delete (d.selects ·)) db ∧
      received = (leftBy exec given ds earlier ⟨files, []⟩).received ++
        ds.flatMap fun d => db.rows.filter (d.2.selects ·) := by
  unfold deleteCommits at h
  obtain ⟨ds, hds, h⟩ := bind_eq_ok.mp h
  simp only [deleteBlock, selectRun, deleteRun, designations_plain hp hds] at h
  obtain ⟨rfl, rfl⟩ := Prod.mk.inj (Except.ok.inj h)
  refine ⟨ds, hds, ?_, rfl⟩
  rw [List.foldl_map]
  rfl

/-- **The spec of a deletion by plain arguments**: the rows that no statement selects stay, and each
    statement hands out the rows it selects. -/
theorem deleteCommits_plain {exec : Exec} {given : Bool} {whats : List String}
    {earlier : List (Jobs × Option Stop)} {db db' : Jobs} {files : Nat → Files}
    {received : List Row} (hp : ∀ what ∈ whats, PlainArg what)
    (h : deleteCommits exec given whats earlier db files = .ok (db', received)) :
    ∃ ds, designations false whats = .ok ds ∧
      (∀ r, r ∈ db' ↔ r ∈ db ∧ ∀ d ∈ ds, d.2.selects r = false) ∧
      received = (leftBy exec given ds earlier ⟨files, []⟩).received ++
        ds.flatMap fun d => db.rows.filter (d.2.selects ·) := by
  obtain ⟨ds, hds, rfl, hreceived⟩ := deleteCommits_reads hp h
  refine ⟨ds, hds, fun r => ?_, hreceived⟩
  rw [mem_foldl_delete, List.forall_mem_map]

/-- The table is the one `JobQueue.delete` comes to. -/
theorem delete_of_deleteCommits {exec : Exec} {given : Bool} {whats : List String}
    {earlier : List (Jobs × Option Stop)} {db db' : Jobs} {files : Nat → Files}
    {received : List Row} (hp : ∀ what ∈ whats, PlainArg what)
    (h : deleteCommits exec given whats earlier db files = .ok (db', received)) (sqlite : OtherSql) :
    JobQueue.delete sqlite false whats db = .ok db' := by
  obtain ⟨ds, hds, rfl, -⟩ := deleteCommits_reads hp h
  have hread : ∀ (xs : List String) (ds : List (String × Designation)),
      List.Forall₂ (fun what d => designate false what = .ok d.2) xs ds →
      xs.mapM (designate false) = .ok (ds.map Prod.snd) := by
    intro xs ds hall
    induction hall with
    | nil => rfl
    | cons hd _ ih => rw [List.mapM_cons, hd, ih]; rfl
  exact delete_eq hp (hread _ _ (designations_forall₂ hds))

/-- Without force no running row goes. -/
theorem sparesRunning {exec : Exec} {given : Bool} {whats : List String}
    {earlier : List (Jobs × Option Stop)} {db db' : Jobs} {files : Nat → Files}
    {received : List Row} (hp : ∀ what ∈ whats, PlainArg what)
    (h : deleteCommits exec given whats earlier db files = .ok (db', received)) :
    SparesRunning db db' := by
  obtain ⟨ds, hds, hmem, -⟩ := deleteCommits_plain hp h
  intro r hr hgone
  have hsel : ∃ d ∈ ds, d.2.selects r = true := by
    by_contra hno
    refine hgone ((hmem r).mpr ⟨hr, fun d hd => ?_⟩)
    rw [← Bool.not_eq_true]
    exact fun ht => hno ⟨d, hd, ht⟩
  obtain ⟨d, hd, ht⟩ := hsel
  obtain ⟨what, -, hok⟩ := mem_of_forall₂ (designations_forall₂ hds) hd
  exact selects_not_running hok ht

/-! ## How often a row is selected -/

/-- A statement brings a row of the table at most once. -/
theorem countP_filter_jid {db : Jobs} {r : Row} (hr : r ∈ db) (p : Row → Bool) :
    (db.rows.filter p).countP (fun s => s.jid == r.jid) = if p r then 1 else 0 := by
  have hnodup : (db.rows.filter p).Nodup := by
    refine List.Nodup.filter p (db.sorted.imp fun hlt heq => ?_)
    rw [heq] at hlt
    exact absurd hlt (Nat.lt_irrefl _)
  have hcount : (db.rows.filter p).countP (fun s => s.jid == r.jid)
      = (db.rows.filter p).count r := by
    refine List.countP_congr fun s hs => ?_
    have hs' : s ∈ db := List.mem_of_mem_filter hs
    constructor
    · intro hjid
      simpa using Jobs.eq_of_jid hs' hr (beq_iff_eq.mp hjid)
    · intro heq
      simp [beq_iff_eq.mp heq]
  rw [hcount]
  by_cases hp : p r = true
  · rw [if_pos hp, List.count_eq_one_of_mem hnodup (List.mem_filter.mpr ⟨hr, hp⟩)]
  · rw [if_neg hp, List.count_eq_zero_of_not_mem fun hmem => hp (List.mem_filter.mp hmem).2]

/-- All statements together bring it as often as there are statements that select it. -/
theorem countP_selected {db : Jobs} {r : Row} (hr : r ∈ db) (ds : List (String × Designation)) :
    (ds.flatMap fun d => db.rows.filter (d.2.selects ·)).countP (fun s => s.jid == r.jid)
      = ds.countP fun d => d.2.selects r := by
  induction ds with
  | nil => rfl
  | cons d ds ih =>
    rw [List.flatMap_cons, List.countP_append, ih, countP_filter_jid hr, List.countP_cons]
    omega

/-- A row that has a state and does not run is selected by the arguments that mean it. -/
theorem countP_selects {whats : List String} {ds : List (String × Designation)} {r : Row}
    (hd : ∀ what ∈ whats, IsDesignator what)
    (h : List.Forall₂ (fun what d => designate false what = .ok d.2) whats ds) :
    ds.countP (fun d => d.2.selects r)
      = if r.state ≠ none ∧ r.state ≠ some "running" then whats.countP (means · r) else 0 := by
  induction h with
  | nil => simp
  | @cons what d whats ds hok _ ih =>
    obtain ⟨d', hd', -, hsel⟩ := exists_designation (hd what List.mem_cons_self)
    obtain rfl : d' = d.2 := Except.ok.inj (hd'.symm.trans hok)
    rw [List.countP_cons, ih fun w hw => hd w (List.mem_cons_of_mem _ hw)]
    by_cases hstate : r.state ≠ none ∧ r.state ≠ some "running"
    · have hiff : d.2.selects r = means what r := by
        rw [Bool.eq_iff_iff, hsel]
        exact and_iff_left hstate
      rw [if_pos hstate, if_pos hstate, List.countP_cons, hiff]
    · have hno : d.2.selects r = false := by
        rw [← Bool.not_eq_true, hsel]
        exact fun hboth => hstate hboth.2
      rw [if_neg hstate, if_neg hstate, hno]
      rfl

/-! ## When a deletion is exact -/

/-- What failed attempts have handed out. -/
def handedOut (exec : Exec) (given : Bool) (whats : List String)
    (earlier : List (Jobs × Option Stop)) (files : Nat → Files) : List Row :=
  match designations false whats with
  | .ok ds => (leftBy exec given ds earlier ⟨files, []⟩).received
  | .error _ => []

/-- **When a deletion removes what was asked and says so once.**  No running row goes when every
    argument is a number or a word and nothing else on its other lines.  The rest, for arguments
    that are numbers or (beginnings of) words: each row they mean has a state, is meant by one of
    them only, and was not handed out by an attempt that failed. -/
theorem delete_exact (exec : Exec) (given : Bool) (whats : List String)
    (earlier : List (Jobs × Option Stop)) (db db' : Jobs) (files : Nat → Files)
    (received : List Row)
    (h : deleteCommits exec given whats earlier db files = .ok (db', received)) :
    ((∀ what ∈ whats, PlainArg what) → SparesRunning db db') ∧
    (whats ≠ [] → (∀ what ∈ whats, IsDesignator what) →
      (Exact whats db db' received ↔
        ∀ r ∈ db, r.state ≠ some "running" → (∃ what ∈ whats, means what r = true) →
          r.state ≠ none ∧ whats.countP (means · r) = 1 ∧
            ∀ s ∈ handedOut exec given whats earlier files, s.jid ≠ r.jid)) := by
  refine ⟨fun hp => sparesRunning hp h, fun hne hd => ?_⟩
  obtain ⟨ds, hds, hmem, hreceived⟩ := deleteCommits_plain (fun what hw => (hd what hw).plainArg) h
  have hforall := designations_forall₂ hds
  rw [if_neg (by simpa using hne)] at hforall
  have hhanded : handedOut exec given whats earlier files
      = (leftBy exec given ds earlier ⟨files, []⟩).received := by
    rw [handedOut, hds]
  rw [← hhanded] at hreceived
  -- what a statement selects of a row, and how often the caller gets it
  have hgone : ∀ r ∈ db, (r ∉ db' ↔ 0 < ds.countP fun d => d.2.selects r) := by
    intro r hr
    rw [hmem, List.countP_pos_iff]
    simp [hr]
  have hcount : ∀ r ∈ db, received.countP (fun s => s.jid == r.jid)
      = (handedOut exec given whats earlier files).countP (fun s => s.jid == r.jid)
        + ds.countP fun d => d.2.selects r := by
    intro r hr
    rw [hreceived, List.countP_append, countP_selected hr]
  -- only rows that have a state and do not run are selected, by the arguments that mean them
  have hsel : ∀ r : Row, 0 < ds.countP (fun d => d.2.selects r) →
      (r.state ≠ none ∧ r.state ≠ some "running") ∧ ∃ what ∈ whats, means what r = true := by
    intro r hpos
    rw [countP_selects hd hforall] at hpos
    split at hpos
    · rename_i hstate
      exact ⟨hstate, List.countP_pos_iff.mp hpos⟩
    · exact absurd hpos (Nat.lt_irrefl 0)
  constructor
  · intro hexact r hr hrun hmean
    have hout := (hexact.removed r hr).mpr ⟨hrun, hmean⟩
    have honce := hexact.once r hr hout
    have hpos := (hgone r hr).mp hout
    obtain ⟨hstate, -⟩ := hsel r hpos
    rw [hcount r hr] at honce
    have hnone : (handedOut exec given whats earlier files).countP (fun s => s.jid == r.jid) = 0 := by
      omega
    have hone : ds.countP (fun d => d.2.selects r) = 1 := by omega
    rw [countP_selects hd hforall, if_pos hstate] at hone
    refine ⟨hstate.1, hone, fun s hs => ?_⟩
    simpa using List.countP_eq_zero.mp hnone s hs
  · intro hcond
    refine ⟨fun r hr => ((hmem r).mp hr).1, fun r hr => ?_, fun r hr hout => ?_⟩
    · rw [hgone r hr]
      constructor
      · intro hpos
        obtain ⟨hstate, hmean⟩ := hsel r hpos
        exact ⟨hstate.2, hmean⟩
      · rintro ⟨hrun, hmean⟩
        obtain ⟨hnone, hone, -⟩ := hcond r hr hrun hmean
        rw [countP_selects hd hforall, if_pos ⟨hnone, hrun⟩, hone]
        exact Nat.zero_lt_one
    · obtain ⟨hstate, hmean⟩ := hsel r ((hgone r hr).mp hout)
      obtain ⟨-, hone, hnew⟩ := hcond r hr hstate.2 hmean
      have hnone : (handedOut exec given whats earlier files).countP (fun s => s.jid == r.jid)
          = 0 := by
        refine List.countP_eq_zero.mpr fun s hs => ?_
        simpa using hnew s hs
      rw [hcount r hr, hnone, countP_selects hd hforall, if_pos hstate, hone]

/-- A job in a state, with nothing else in its row. -/
def jobIn (jid : Nat) (state : String) : Row where
  jid := jid
  priority := none
  state := some state
  submitted := none
  started := none
  finished := none
  elapsed := none
  submitter := none
  runner := none
  stdin := none
  stdout := none
  stderr := none
  data := none
  pid := none
  exitStatus := none
  tag := none
  restartable := none
  command := none

/-- A running job and a pending one. -/
def runningAndPending : Jobs := ⟨[jobIn 1 "running", jobIn 2 "pending"], by decide⟩

/-- What SQLite makes of `jid=1 or jid=2 and state!='running'`: `and` binds tighter. -/
def orBeforeAnd : Exec := fun t db =>
  let p : Row → Bool := fun r => r.jid == 1 || (r.jid == 2 && neLit r.state "running")
  let w := "jid=1\nor jid=2 and state!='running';\n".toList
  if t = "delete from jobs where ".toList ++ w then ((db.delete p, []), none)
  else if t = "select * from jobs where ".toList ++ w then ((db, db.rows.filter p), none)
  else ((db, []), some .standard)

/-- The pending job is deleted by its number; the running one is left, and not handed out. -/
theorem delete_pending_job :
    ∃ db' received, deleteCommits orBeforeAnd true ["2", "run"] [] runningAndPending (fun _ => {})
        = .ok (db', received) ∧
      SparesRunning runningAndPending db' ∧ Exact ["2", "run"] runningAndPending db' received := by
  obtain ⟨out, h⟩ : ∃ out, deleteCommits orBeforeAnd true ["2", "run"] [] runningAndPending
    (fun _ => {}) = .ok out := ⟨_, rfl⟩
  have hwords : ∀ what ∈ ["2", "run"], IsDesignator what := by
    intro what hwhat
    rcases List.mem_cons.mp hwhat with rfl | hwhat
    · exact Or.inl (by decide)
    · rw [List.mem_singleton.mp hwhat]
      exact Or.inr ⟨"running", by decide, by decide⟩
  obtain ⟨hspares, hexact⟩ := delete_exact _ _ _ _ _ _ _ _ h
  refine ⟨out.1, out.2, h, hspares fun what hw => (hwords what hw).plainArg,
    (hexact (by simp) hwords).mpr ?_⟩
  intro r hr hrun hmean
  have hjob : r = jobIn 1 "running" ∨ r = jobIn 2 "pending" := by
    simpa [runningAndPending, Jobs.mem_def] using hr
  rcases hjob with rfl | rfl
  · exact absurd rfl hrun
  · exact ⟨by decide, by decide, by intro s hs; cases hs⟩

/-- An `or` on the second line of an argument removes a running job, and a job that is meant by its
    number and by its state is handed out twice. -/
theorem delete_inexact :
    (∃ db' received, deleteCommits orBeforeAnd true ["1\nor jid=2"] [] runningAndPending
        (fun _ => {}) = .ok (db', received) ∧ ¬ SparesRunning runningAndPending db') ∧
    (∃ db' received, deleteCommits orBeforeAnd true ["2", "pending"] [] runningAndPending
        (fun _ => {}) = .ok (db', received) ∧
      (∀ what ∈ ["2", "pending"], IsDesignator what) ∧
      ¬ Exact ["2", "pending"] runningAndPending db' received) := by
  constructor
  · refine ⟨Jobs.empty, _, rfl, fun h => ?_⟩
    exact h (jobIn 1 "running") (by decide) (by decide) rfl
  · refine ⟨⟨[jobIn 1 "running"], by decide⟩, [jobIn 2 "pending", jobIn 2 "pending"], rfl, ?_,
      fun h => ?_⟩
    · intro what hwhat
      rcases List.mem_cons.mp hwhat with rfl | hwhat
      · exact Or.inl (by decide)
      · rw [List.mem_singleton.mp hwhat]
        exact Or.inr ⟨"pending", by decide, by decide⟩
    · exact absurd (h.once (jobIn 2 "pending") (by decide) (by decide)) (by decide)

end RubyQueue.Delete
