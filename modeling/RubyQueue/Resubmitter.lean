/-
  `ReSubmitter#resubmit` of `lib/rq/resubmitter.rb`, under Ruby 1.9.

  Two things go wrong there for a job that is not running.  The `update` of `JobQueue#resubmit` is
  built from interpolated Arrays, so it assigns names no column has and SQLite raises.  And the
  block that was to hand the new tuple out, `{|resubmitted|}`, has a variable of its own since Ruby
  1.9, so the tuple printed afterwards is nil.  Jobs given as text are not even listed.

  * `resubmit_raises`       — `JobQueue#resubmit` raises for every job;
  * `restarts_in_place_iff` — so the command does what it says exactly when it has nothing to do.
-/
import RubyQueue.Interpolate
import RubyQueue.JobFiles

namespace RubyQueue.Resubmitter

open RubyQueue.Sqlite RubyQueue.Quote RubyQueue.JobQueue RubyQueue.FileTree RubyQueue.JobFiles
open RubyQueue.Interpolate RubyQueue.Raise
open RubyQueue.Where (OtherSelect)

/-! ## `JobQueue#resubmit` -/

/-- `kvs.join ','`. -/
def resubmitKvs (now host : String) (job : Row) : Text :=
  joinSet [] ((resubmitTuple now host job).map fun kv =>
    (kv.1.name.toList, interpolate (kv.2.map String.toList)))

/-- The text of the `update`. -/
def resubmitSql (now host : String) (job : Row) : Text :=
  "update jobs set ".toList ++ (resubmitKvs now host job ++
    (" where jid=".toList ++ ((toString job.jid).toList ++ ";\n".toList)))

/-- The name the first value of an `update` starts with. -/
def readAssigned : List Token → Option Text
  | ⟨.keyword "UPDATE", _⟩ :: ⟨.id, _⟩ :: ⟨.keyword "SET", _⟩ :: ⟨.id, _⟩ :: ⟨.eq, _⟩ ::
      ⟨.id, w⟩ :: _ => some (sqliteDequote w)
  | _ => none

/-- SQLite on an `update`.  A name that starts with a double quote is that of no column, table or
    function, whatever comes after it. -/
def runUpdate (sqlite : OtherSql) (sql : Text) (db : Jobs) : Except String Jobs :=
  match readAssigned (lex (cString sql)) with
  | some name => if name.head? = some '"' then .error "no such column" else sqlite sql db
  | none => sqlite sql db

/-- `mv data, data_4(jid)`, or `mkdir_p data_4(jid)`. -/
def moveData (p : Place) (jid : Nat) (data : Option String) (t : Tree) : Except String Tree :=
  match data with
  | none => .ok (mkdirP (data_4 p jid) t)
  | some text =>
    match if text = "" then none else mv (expandPath p.cwd text) (data_4 p jid) t with
    | some t => .ok t
    | none => .error "No such file or directory"

/-- `JobQueue#resubmit` of one job. -/
def resubmit (sqlite : OtherSql) (p : Place) (now host : String) (job : Row) (w : World) :
    Except String World :=
  if job.command = none then .error "no command for job"
  else do
    let (ts, w) ← tmpStdin p job.stdin w
    let jobs ← runUpdate sqlite (resubmitSql now host job) w.jobs
    let outputs := [standardIn4 p job.jid, standardOut4 p job.jid, standardErr4 p job.jid]
    let tree ← moveData p job.jid job.data (copyStdin p job.jid ts (rmAll outputs w.tree))
    .ok { w with jobs := jobs, tree := tree }

/-! ## `ReSubmitter#resubmit` -/

/-- The options it looks at; `jobStdin` is what `init_job_stdin!` leaves of it. -/
structure Options where
  given : Overrides := {}
  jobStdin : Option String := none
  data : Option String := none
deriving DecidableEq, Repr

/-- What `jobs.each` sets in a job before it is handed on. -/
def Options.apply (opts : Options) (job : Row) : Row :=
  { opts.given.apply job with stdin := opts.jobStdin.or job.stdin, data := opts.data.or job.data }

/-- One round of `jobs.each`.  The tuple is never that of the block. -/
def resubmitListed (sqlite : OtherSql) (p : Place) (now host : String) (opts : Options) (w : World)
    (job : Row) : Except String World :=
  if saysRunning job then .ok w
  else do
    let _ ← resubmit sqlite p now host (opts.apply job) w
    .error "undefined method fields for nil"

/-- `ReSubmitter#resubmit`; `argv` is the command line and the jids read from the input. -/
def reSubmitter (other : OtherSelect) (sqlite : OtherSql) (p : Place) (now host : String)
    (opts : Options) (argv : List Arg) (w : World) : Except String World :=
  if argv.isEmpty then .error "no jobs specified!"
  else do
    let jobs ← Interpolate.list other argv w.jobs
    jobs.foldlM (resubmitListed sqlite p now host opts) w

/-! ## What was asked -/

/-- The argument is the jid of a job. -/
def IsJid (db : Jobs) : Arg → Prop
  | .number n => ∃ r ∈ db, (r.jid : Int) = n
  | .text s => allDigits s.toList = true ∧ ∃ r ∈ db, r.jid = digitsValue s.toList

/-- The job waits again under its jid, with its values, its stdin and its data, as far as no option
    changes them, and with no record of a run. -/
structure Restarted (p : Place) (opts : Options) (before after : Tree) (r s : Row) : Prop where
  jid : s.jid = r.jid
  command : s.command = r.command
  state : s.state = some "pending"
  priority : s.priority = opts.given.priority.getD r.priority
  tag : s.tag = opts.given.tag.getD r.tag
  runner : s.runner = opts.given.runner.getD r.runner
  restartable : s.restartable = opts.given.restartable.getD r.restartable
  cleared : [s.started, s.finished, s.elapsed, s.pid, s.exitStatus, s.stdout, s.stderr]
    = List.replicate 7 none
  stdin : opts.jobStdin = none → after (standardIn4 p r.jid) = before (standardIn4 p r.jid)
  data : opts.data = none → ∀ rel, after (data_4 p r.jid ++ rel) = before (data_4 p r.jid ++ rel)

/-- A job that is selected and not running. -/
def restarts (argv : List Arg) (r : Row) : Bool :=
  argv.any (Arg.means r) && r.state != some "running"

/-- Those jobs are restarted; all other jobs and files are as they were. -/
structure RestartsInPlace (p : Place) (opts : Options) (argv : List Arg) (w w' : World) : Prop where
  rows : List.Forall₂
    (fun r s => if restarts argv r then Restarted p opts w.tree w'.tree r s else s = r)
    w.jobs.rows w'.jobs.rows
  files : ∀ x, (∀ r ∈ w.jobs, restarts argv r = true → ∀ path ∈ jobPaths p r.jid, ¬ path <+: x) →
    w'.tree x = w.tree x

/-! ## The update -/

/-- It begins with a name in brackets, and that with a double quote. -/
theorem resubmitSql_eq (now host : String) (job : Row) : ∃ rest,
    resubmitSql now host job = "update jobs set priority=[\"".toList ++ rest := by
  obtain ⟨kvs, hkvs⟩ : ∃ kvs, resubmitKvs now host job
      = "priority".toList ++ '=' :: (interpolate (some (job.priority.getD "0").toList) ++ kvs) :=
    ⟨_, rfl⟩
  obtain ⟨value, hvalue⟩ : ∃ value, interpolate (some (job.priority.getD "0").toList)
      = '[' :: '"' :: value := ⟨_, rfl⟩
  refine ⟨value ++ (kvs ++ (" where jid=".toList ++ ((toString job.jid).toList ++ ";\n".toList))), ?_⟩
  unfold resubmitSql
  rw [hkvs, hvalue]
  simp

/-- **The value assigned first** is a name that starts with a double quote. -/
theorem readAssigned_update (rest : Text) : ∃ name,
    readAssigned (lex ("update jobs set priority=[\"".toList ++ rest)) = some ('"' :: name) := by
  obtain ⟨w, ts, hw⟩ : ∃ w ts, lex ('[' :: '"' :: rest) = ⟨.id, '[' :: '"' :: w⟩ :: ts := by
    rw [lex_openBracket, List.takeWhile_cons_of_pos (by decide)]
    exact ⟨_, _, rfl⟩
  have hlex : lex ("update jobs set priority=[\"".toList ++ rest) =
      [⟨.keyword "UPDATE", "update".toList⟩, ⟨.id, "jobs".toList⟩, ⟨.keyword "SET", "set".toList⟩,
        ⟨.id, "priority".toList⟩, ⟨.eq, ['=']⟩, ⟨.id, '[' :: '"' :: w⟩] ++ ts := by
    show lex ('u' :: ("pdate".toList ++ ' ' :: ("jobs set priority=[\"".toList ++ rest))) = _
    rw [lex_word_space rfl rfl]
    show _ :: lex ('j' :: ("obs".toList ++ ' ' :: ("set priority=[\"".toList ++ rest))) = _
    rw [lex_word_space rfl rfl, keywordCode_jobs]
    show _ :: _ :: lex ('s' :: ("et".toList ++ ' ' :: ("priority=[\"".toList ++ rest))) = _
    rw [lex_word_space rfl rfl]
    show _ :: _ :: _ :: lex ('p' :: ("riority".toList ++ '=' :: ('[' :: '"' :: rest))) = _
    rw [lex_word rfl rfl (endsWord_cons rfl _), lex_eq (by simp), hw]
    rfl
  refine ⟨unquote ']' w, ?_⟩
  rw [hlex]
  show some (unquote ']' ('"' :: w)) = _
  rw [unquote_cons (by decide)]

/-- **`JobQueue#resubmit` raises**, whatever the job and whatever else SQLite would do. -/
theorem resubmit_raises (sqlite : OtherSql) (p : Place) (now host : String) (job : Row)
    (w w' : World) : resubmit sqlite p now host job w ≠ .ok w' := by
  intro h
  unfold resubmit at h
  split at h
  · cases h
  have hsql : ∀ db, runUpdate sqlite (resubmitSql now host job) db = .error "no such column" := by
    intro db
    obtain ⟨rest, hrest⟩ := resubmitSql_eq now host job
    obtain ⟨name, hname⟩ := readAssigned_update (cString rest)
    unfold runUpdate
    rw [hrest, cString_append (by decide), hname]
    rfl
  obtain ⟨⟨ts, w₁⟩, -, h⟩ := bind_eq_ok.mp h
  obtain ⟨jobs, hjobs, -⟩ := bind_eq_ok.mp h
  rw [hsql] at hjobs
  cases hjobs

/-! ## The command -/

section Loop

variable {sqlite : OtherSql} {p : Place} {now host : String} {opts : Options} {w w' : World}

/-- A round that does not raise has left everything as it was. -/
theorem resubmitListed_ok_iff {job : Row} :
    resubmitListed sqlite p now host opts w job = .ok w' ↔ saysRunning job = true ∧ w' = w := by
  unfold resubmitListed
  split
  · rename_i hrun
    constructor
    · intro h
      exact ⟨hrun, (Except.ok.inj h).symm⟩
    · rintro ⟨-, rfl⟩
      rfl
  · rename_i hrun
    constructor
    · intro h
      obtain ⟨w₁, hone, -⟩ := bind_eq_ok.mp h
      exact absurd hone (resubmit_raises _ _ _ _ _ _ _)
    · rintro ⟨h, -⟩
      exact absurd h hrun

/-- The loop gets to its end when there is nothing to do.  Induction on the jobs. -/
theorem foldlM_ok_iff : ∀ {jobs : List Row},
    jobs.foldlM (resubmitListed sqlite p now host opts) w = .ok w' ↔
      (∀ job ∈ jobs, saysRunning job = true) ∧ w' = w
  | [] => by
    constructor
    · intro h
      exact ⟨fun job hjob => absurd hjob List.not_mem_nil, (Except.ok.inj h).symm⟩
    · rintro ⟨-, rfl⟩
      rfl
  | job :: jobs => by
    have ih := @foldlM_ok_iff jobs
    rw [List.foldlM_cons, List.forall_mem_cons]
    constructor
    · intro h
      obtain ⟨w₁, hone, hrest⟩ := bind_eq_ok.mp h
      obtain ⟨hrun, rfl⟩ := resubmitListed_ok_iff.mp hone
      obtain ⟨hall, rfl⟩ := ih.mp hrest
      exact ⟨⟨hrun, hall⟩, rfl⟩
    · rintro ⟨⟨hrun, hall⟩, rfl⟩
      rw [resubmitListed_ok_iff.mpr ⟨hrun, rfl⟩]
      exact ih.mpr ⟨hall, rfl⟩

end Loop

theorem reSubmitter_eq {other : OtherSelect} {sqlite : OtherSql} {p : Place} {now host : String}
    {opts : Options} {argv : List Arg} {w : World} (hne : argv ≠ []) :
    reSubmitter other sqlite p now host opts argv w
      = Interpolate.list other argv w.jobs >>=
          fun jobs => jobs.foldlM (resubmitListed sqlite p now host opts) w := by
  have hempty : argv.isEmpty = false := by simpa using hne
  unfold reSubmitter
  rw [hempty]
  rfl

/-- **When `resubmit` restarts its jobs in place**, under Ruby 1.9: when there are some, all given
    as numbers and all of them running, so that it has nothing to do. -/
theorem restarts_in_place_iff (other : OtherSelect) (sqlite : OtherSql) (p : Place)
    (now host : String) (opts : Options) (argv : List Arg) (w : World)
    (hargv : ∀ a ∈ argv, IsJid w.jobs a) :
    (∃ w', reSubmitter other sqlite p now host opts argv w = .ok w' ∧
      RestartsInPlace p opts argv w w') ↔
      argv ≠ [] ∧ (∀ a ∈ argv, a.isNumber = true) ∧
        ∀ r ∈ w.jobs, argv.any (Arg.means r) = true → r.state = some "running" := by
  have hlistArg : ∀ a ∈ argv, IsListArg a := by
    intro a ha
    have hjid := hargv a ha
    cases a with
    | number n => trivial
    | text s => exact Or.inl hjid.1
  constructor
  · rintro ⟨w', hok, hrestarts⟩
    have hne : argv ≠ [] := by
      rintro rfl
      cases hok
    rw [reSubmitter_eq hne] at hok
    obtain ⟨jobs, hlist, hok⟩ := bind_eq_ok.mp hok
    have hnumbers := (numbers_of_list other hlistArg hlist).2
    obtain rfl := Except.ok.inj ((list_of_numbers other hlistArg hne hnumbers _).symm.trans hlist)
    obtain ⟨hrunning, rfl⟩ := foldlM_ok_iff.mp hok
    refine ⟨hne, hnumbers, fun r hr hsel => by_contra fun hstate => ?_⟩
    -- such a job would have become pending
    have hrow := List.forall₂_same.mp hrestarts.rows r hr
    have hrestart : restarts argv r = true := by simp [restarts, hsel, hstate]
    rw [if_pos hrestart] at hrow
    have hsays := hrunning r (List.mem_filter.mpr ⟨hr, hsel⟩)
    unfold saysRunning at hsays
    rw [hrow.state] at hsays
    exact absurd hsays (by decide)
  · rintro ⟨hne, hnumbers, hstate⟩
    refine ⟨w, ?_, ?_⟩
    · rw [reSubmitter_eq hne, list_of_numbers other hlistArg hne hnumbers]
      refine foldlM_ok_iff.mpr ⟨fun r hr => ?_, rfl⟩
      obtain ⟨hmem, hsel⟩ := List.mem_filter.mp hr
      unfold saysRunning
      rw [hstate r hmem hsel]
      decide
    · constructor
      · refine List.forall₂_same.mpr fun r hr => ?_
        rw [if_neg]
        intro hrestart
        obtain ⟨hsel, hnot⟩ := Bool.and_eq_true_iff.mp hrestart
        exact absurd (hstate r hr hsel) (by simpa using hnot)
      · intro x _
        rfl

/-! ## Two jobs -/

/-- A job as it was submitted, in some state. -/
def jobRow (jid : Nat) (state : String) : Row :=
  ⟨jid, some "0", some state, some "2005-07-01", none, none, none, some "node1", none,
    some (stdin4 jid), none, none, some (data4 jid), none, none, none, none, some "sort"⟩

/-- A running job and a pending one, with their stdins and data directories. -/
def twoJobs : World where
  jobs := ⟨[jobRow 1 "running", jobRow 2 "pending"], by decide⟩
  tree path := List.lookup path [(["q", "stdin", "1"], .file "b a"), (["q", "data", "1"], .directory),
    (["q", "stdin", "2"], .file "d c"), (["q", "data", "2"], .directory)]
  input := ""

/-- `rq q resubmit` in the directory of the queue, with no options. -/
def resubmitIn (argv : List Arg) : Except String World :=
  reSubmitter (fun _ _ => .error "SQL error") (fun _ _ => .error "SQL error") ⟨["q"], ["q"]⟩
    "2005-07-04" "node1" {} argv twoJobs

/-- The running job is left alone. -/
theorem resubmit_running_job : ∃ w', resubmitIn [.number 1] = .ok w' ∧
    RestartsInPlace ⟨["q"], ["q"]⟩ {} [.number 1] twoJobs w' := by
  refine (restarts_in_place_iff _ _ ⟨["q"], ["q"]⟩ _ _ {} [.number 1] twoJobs ?_).mpr
    ⟨by simp, by decide, by decide⟩
  intro a ha
  rw [List.mem_singleton.mp ha]
  exact ⟨jobRow 1 "running", List.mem_cons_self, rfl⟩

/-- The pending job cannot be resubmitted, by its number or as text. -/
theorem resubmit_pending_raises :
    (IsJid twoJobs.jobs (.number 2) ∧ ¬ ∃ w', resubmitIn [.number 2] = .ok w' ∧
      RestartsInPlace ⟨["q"], ["q"]⟩ {} [.number 2] twoJobs w') ∧
    (IsJid twoJobs.jobs (.text "2") ∧ ¬ ∃ w', resubmitIn [.text "2"] = .ok w' ∧
      RestartsInPlace ⟨["q"], ["q"]⟩ {} [.text "2"] twoJobs w') := by
  have hmem : jobRow 2 "pending" ∈ twoJobs.jobs := List.mem_cons_of_mem _ List.mem_cons_self
  have hargs : ∀ a, IsJid twoJobs.jobs a → ∀ b ∈ [a], IsJid twoJobs.jobs b := by
    intro a ha b hb
    rw [List.mem_singleton.mp hb]
    exact ha
  have hnumber : IsJid twoJobs.jobs (.number 2) := ⟨_, hmem, rfl⟩
  have htext : IsJid twoJobs.jobs (.text "2") := ⟨by decide, _, hmem, by decide⟩
  refine ⟨⟨hnumber, ?_⟩, htext, ?_⟩
  · unfold resubmitIn
    rw [restarts_in_place_iff _ _ _ _ _ _ _ _ (hargs _ hnumber)]
    rintro ⟨-, -, hstate⟩
    exact absurd (hstate _ hmem rfl) (by decide)
  · unfold resubmitIn
    rw [restarts_in_place_iff _ _ _ _ _ _ _ _ (hargs _ htext)]
    rintro ⟨-, hnumbers, -⟩
    cases hnumbers _ (List.mem_singleton_self _)

end RubyQueue.Resubmitter
