/-
  Does `rotate` lose a job?

  `Rotater#rotate` copies the queue to a rotation directory `rot`, deletes the waiting and running
  jobs in the copy and the dead and finished ones in the queue, packs the directory into
  `rot.tgz` and removes it.

  Three things can lose what was rotated.  The name is tested as `rot`, but what stays behind is
  `rot.tgz`: the second rotation of one name overwrites the archive of the first.  `@q.delete`
  removes the files of the jobs inside a transaction whose rollback does not bring them back, and
  whose block removes the copy when it is left with an error.  And the names stand unquoted in the
  command line of `tar`.  `Clean` excludes them, and then every job a rotation removes is in exactly
  one rotation (`rotation_loses_nothing`); `second_rotation_overwrites` shows the first.

  A job is followed by an identity of its own: SQLite gives the jid of a deleted job to the next.
-/
import RubyQueue.Base.Run
import RubyQueue.Transaction

namespace RubyQueue.Rotation

open RubyQueue.Sqlite RubyQueue.JobQueue RubyQueue.Qdb RubyQueue.Run

/-! ## Queues and rotations on disk -/

/-- The files of a job: `stdin/jid`, `stdout/jid`, `stderr/jid` and `data/jid`. -/
structure Files where
  stdin : Option String := none
  stdout : Option String := none
  stderr : Option String := none
  data : Option String := none
deriving DecidableEq, Repr

/-- A queue directory: the table, and the files and identity of the job of each jid. -/
structure Queue where
  jobs : Jobs
  files : Nat → Files
  ids : Nat → Nat

/-- A path: the base name, and the directory it is in. -/
abbrev Path := List String

/-- What there can be at a path.  A rotation is a directory that is a queue; an archive holds one. -/
inductive Node
  | directory
  | file
  | rotation (q : Queue)
  | archive (q : Queue)

abbrev Fs := Path → Option Node

/-- `File::directory?`. -/
def isDirectory : Option Node → Bool
  | some .directory | some (.rotation _) => true
  | _ => false

/-- The queue that is kept at a path. -/
def stored (fs : Fs) (p : Path) : Option Queue :=
  match fs p with
  | some (.rotation q) | some (.archive q) => some q
  | _ => none

/-- `FileUtils::rm_rf` of the copy: nothing else is below it. -/
def rmRf (fs : Fs) (p : Path) : Fs := Function.update fs p none

/-- `FileUtils::mkdir_p`: the directory and those above it that are not there, up to `/`.  Nothing
    is made when a file is in the way. -/
def mkdirP (fs : Fs) (dir : Path) : Fs :=
  if dir.tails.any fun d => (fs d).isSome && !isDirectory (fs d) then fs
  else fun p =>
    if (fs p).isNone && (!p.isEmpty && dir.tails.contains p) then some .directory else fs p

/-! ## `JobQueue#delete` with its files -/

/-- `scrub`, for each of the jobs. -/
def scrub (gone : List Row) (files : Nat → Files) : Nat → Files := fun jid =>
  if gone.any (·.jid == jid) then {} else files jid

/-- `JobQueue#delete`.  The `select` has the conditions of the `delete`, so the jobs scrubbed are
    the jobs deleted. -/
def Queue.delete (sqlite : OtherSql) (force : Bool) (whats : List String) (q : Queue) :
    Except String Queue :=
  match JobQueue.delete sqlite force whats q.jobs with
  | .error e => .error e
  | .ok jobs => .ok { q with
      jobs := jobs
      files := scrub (q.jobs.rows.filter fun r => decide (r ∉ jobs.rows)) q.files }

/-! ## The block of `rotate` -/

/-- What `Rotater#cp_r` comes to. -/
inductive Copy
  | done
  -- an attempt failed and left `part` behind, and the next one copied INTO it
  | inside (part : Queue)
  | raises

/-- What is left open in one run of the block. -/
structure Script where
  copy : Copy := .done
  -- `JobQueue::new rot` or `rotq.delete` raises
  rotqRaises : Bool := false
  -- `@q.delete` raises when it has removed the files of so many jobs
  deleteRaises : Option Nat := none

/-- What a rollback does not restore: the files of the queue, and everything outside it. -/
structure Disk where
  files : Nat → Files
  fs : Fs

/-- `self.cp_r @qpath, rot`.  A copy to a directory that is there goes inside it, and nothing reads
    it there. -/
def cpR (qpath rot : Path) (copy : Copy) (q : Queue) (fs : Fs) : Option Fs :=
  -- a directory is not copied into itself
  if qpath.isSuffixOf rot then none
  else
    let made (q : Queue) : Option Fs :=
      match fs rot with
      | some .file | some (.archive _) => none
      | some _ => some fs
      | none =>
        if isDirectory (fs rot.tail) then some (Function.update fs rot (some (.rotation q)))
        else none
    match copy with
    | .done => made q
    | .inside part => made part
    | .raises => none

/-- The words of the two deletions. -/
def liveWords : List String := ["pending", "running", "holding"]

def overWords : List String := ["dead", "finished"]

/-- The rows `@q.delete` selects, in the order of its statements. -/
def overRows (jobs : Jobs) : List Row :=
  jobs.rows.filter (fun r => eqLit r.state "dead") ++
    jobs.rows.filter (fun r => eqLit r.state "finished")

/-- The block: copy, delete in the copy, delete in the queue; `rescue` removes the copy. -/
def rotateBlock (sqlite : OtherSql) (qpath rot : Path) (ids : Nat → Nat) :
    Body Jobs Disk Script := fun script jobs disk =>
  let q : Queue := ⟨jobs, disk.files, ids⟩
  let rescued (files : Nat → Files) (fs : Fs) : (Jobs × Disk) × Option Err :=
    ((jobs, ⟨files, rmRf fs rot⟩), some .standard)
  match cpR qpath rot script.copy q disk.fs with
  | none => rescued disk.files disk.fs
  | some fs =>
    match fs rot with
    | some (.rotation copy) =>
      if script.rotqRaises then rescued disk.files fs
      else
        match copy.delete sqlite true liveWords with
        | .error _ => rescued disk.files fs
        | .ok rotq =>
          let fs := Function.update fs rot (some (.rotation rotq))
          match script.deleteRaises with
          | some n => rescued (scrub ((overRows jobs).take n) disk.files) fs
          | none =>
            match q.delete sqlite false overWords with
            | .error _ => rescued disk.files fs
            | .ok q => ((q.jobs, ⟨q.files, fs⟩), none)
    | _ => rescued disk.files fs

/-! ## `rotate` -/

/-- The characters of a word that mean something to the shell, or to `tar` in a file name. -/
def special : String := " \t\n|&;<>()$\x60\\\"\x27*?[]\x7b\x7d!#~:"

/-- The name stands for itself in the command line. -/
def plainName (rot : Path) : Bool :=
  rot.all (fun part => part.toList.all fun c => !special.toList.contains c) &&
    (rot.headD "").toList.head? != some '-'

/-- `"#{ rot }.tgz"`. -/
def tgz : Path → Path
  | [] => [".tgz"]
  | base :: dir => (base ++ ".tgz") :: dir

/-- How `tar` ends. -/
inductive Tar
  | packed
  -- it may have begun to write the archive
  | failed (wrote : Bool)
deriving DecidableEq, Repr

/-- `tar cvfz rot.tgz rot/`, and whether it succeeds. -/
def tarCvfz (rot : Path) (tar : Tar) (fs : Fs) : Fs × Bool :=
  if isDirectory (fs (tgz rot)) then (fs, false)
  else
    match fs rot, tar with
    | some (.rotation q), .packed => (Function.update fs (tgz rot) (some (.archive q)), true)
    | _, .failed true => (Function.update fs (tgz rot) (some .file), false)
    | _, _ => (fs, false)

/-- A run of the command. -/
structure Request where
  /-- `@argv.shift`, as `realpath` gives it -/
  arg : Option Path
  cwd : Path
  /-- `Time::now.strftime('%Y%m%d%H%M%S')` -/
  stamp : String
  rounds : List (Round Script)
  tar : Tar
  /-- what the shell does with a name that is not plain, and whether it succeeds -/
  shell : Fs × Bool

/-- A job that a rotation has removed, with its files as they were before. -/
structure Record where
  id : Nat
  row : Row
  files : Files
deriving DecidableEq, Repr

structure State where
  queue : Queue
  fs : Fs
  nextId : Nat
  removed : List Record

structure Config where
  sqlite : OtherSql
  retries : Nat
  qpath : Path

variable (cfg : Config)

/-- The name of the rotation.  `realpath` of no argument is the working directory. -/
def rotation (s : State) (req : Request) : Path :=
  let rot := req.arg.getD req.cwd
  if isDirectory (s.fs rot) then (cfg.qpath.headD "" ++ "." ++ req.stamp) :: rot else rot

/-- After the transaction: `tar`, and the directory goes when it has succeeded. -/
def pack (rot : Path) (req : Request) (fs : Fs) : Fs :=
  let r := if plainName rot then tarCvfz rot req.tar fs else req.shell
  if r.2 then rmRf r.1 rot else r.1

/-- What has gone from the queue. -/
def removedBy (q : Queue) (jobs : Jobs) : List Record :=
  (q.jobs.rows.filter fun r => decide (r ∉ jobs.rows)).map fun r =>
    ⟨q.ids r.jid, r, q.files r.jid⟩

/-- `Rotater#rotate`.  `none` while the transaction is still retrying. -/
def rotate (s : State) (req : Request) : Option State :=
  let rot := rotation cfg s req
  -- `abort "<rot> exists"`
  if (s.fs rot).isSome then some s
  else
    (transaction cfg.retries (rotateBlock cfg.sqlite cfg.qpath rot s.queue.ids) req.rounds
      { db := s.queue.jobs, priv := ⟨s.queue.files, mkdirP s.fs rot.tail⟩ }).map fun (r, e) =>
        { s with
          queue := { s.queue with jobs := r.db, files := r.priv.files }
          fs := if e.isNone then pack rot req r.priv.fs else r.priv.fs
          removed := s.removed ++ removedBy s.queue r.db }

/-- A run of `rotate`, or whatever else happens to the queue. -/
inductive Label
  | rotate (req : Request)
  | other (jobs : Jobs) (files : Nat → Files)

/-- A job that was not there gets an identity of its own. -/
def freshIds (s : State) : Nat → Nat := fun jid =>
  if s.queue.jobs.rows.any (·.jid == jid) then s.queue.ids jid else s.nextId + jid

def step (s : State) : Label → Option State
  | .rotate req => rotate cfg s req
  | .other jobs files => some { s with
      queue := ⟨jobs, files, freshIds s⟩
      nextId := s.nextId + jobs.maxJid + 1 }

/-- The queue is there, with no rotation of it yet; no two of its jobs are one. -/
structure Initial (s : State) : Prop where
  queue_there : s.fs cfg.qpath = some .directory
  none_stored : ∀ p, stored s.fs p = none
  none_removed : s.removed = []
  id_lt : ∀ r ∈ s.queue.jobs, s.queue.ids r.jid < s.nextId
  id_inj : ∀ r ∈ s.queue.jobs, ∀ r' ∈ s.queue.jobs,
    s.queue.ids r.jid = s.queue.ids r'.jid → r = r'

/-! ## What a rotation is to keep, and when -/

/-- A job a rotation takes out of the queue. -/
def isOver (r : Row) : Bool := eqLit r.state "dead" || eqLit r.state "finished"

/-- A job a rotation leaves in the queue. -/
def isLive (r : Row) : Bool :=
  eqLit r.state "pending" || (eqLit r.state "running" || eqLit r.state "holding")

/-- The rotation or archive at `p` has the job, row and files. -/
def Has (fs : Fs) (p : Path) (job : Record) : Prop :=
  ∃ q, stored fs p = some q ∧ job.row ∈ q.jobs ∧ q.ids job.row.jid = job.id ∧
    q.files job.row.jid = job.files

/-- The jobs that wait, are held or run are still there, with their files. -/
def KeepsLive (q q' : Queue) : Prop :=
  ∀ r ∈ q.jobs, isLive r = true → r ∈ q'.jobs ∧ q'.files r.jid = q.files r.jid

/-- The attempt is over before `@q.delete` begins. -/
def StopsEarly (a : Attempt Script) : Prop :=
  (a.faults.lock || a.faults.refresh || a.faults.connect || a.faults.start) = true ∨
    a.script.copy = .raises ∨ a.script.rotqRaises = true

/-- Nothing is in the way of the attempt from `@q.delete` on, and its copy is whole. -/
def GoesThrough (a : Attempt Script) : Prop :=
  a.faults = {} ∧ a.script.copy = .done ∧ a.script.deleteRaises = none

/-- **The condition.**  The name means nothing else to the shell, its archive is not there yet, and
    no attempt of the transaction fails once `@q.delete` has begun, or goes on with a copy that is
    not whole. -/
structure Clean (s : State) (req : Request) : Prop where
  plain : plainName (rotation cfg s req) = true
  fresh : s.fs (tgz (rotation cfg s req)) = none
  attempts : ∀ round ∈ req.rounds, ∀ a ∈ round.attempts, StopsEarly a ∨ GoesThrough a

def Careful (s : State) : Label → Prop
  | .rotate req => Clean cfg s req
  | .other _ _ => True

/-! ## The two deletions -/

/-- The queue without some of its jobs and their files. -/
def Queue.without (q : Queue) (p : Row → Bool) : Queue :=
  ⟨q.jobs.delete p, scrub (q.jobs.rows.filter p) q.files, q.ids⟩

theorem Queue.delete_eq {sqlite : OtherSql} {force : Bool} {whats : List String} {q : Queue}
    {p : Row → Bool}
    (h : JobQueue.delete sqlite force whats q.jobs = .ok (q.jobs.delete p)) :
    q.delete sqlite force whats = .ok (q.without p) := by
  have hgone : q.jobs.rows.filter (fun r => decide (r ∉ (q.jobs.delete p).rows))
      = q.jobs.rows.filter p := by
    refine List.filter_congr fun r hr => ?_
    simp [Jobs.delete, hr]
  simp only [Queue.delete, h, hgone, Queue.without]

theorem delete_over (sqlite : OtherSql) (q : Queue) :
    q.delete sqlite false overWords = .ok (q.without isOver) := by
  refine Queue.delete_eq ?_
  show Except.ok ((q.jobs.delete fun r => eqLit r.state "dead").delete
    fun r => eqLit r.state "finished") = _
  congr 1
  apply Jobs.ext
  simp only [Jobs.delete, List.filter_filter]
  refine List.filter_congr fun r _ => ?_
  cases hd : eqLit r.state "dead" <;> cases hf : eqLit r.state "finished" <;> simp [isOver, hd, hf]

theorem delete_live (sqlite : OtherSql) (q : Queue) :
    q.delete sqlite true liveWords = .ok (q.without isLive) := by
  refine Queue.delete_eq ?_
  show Except.ok (((q.jobs.delete fun r => eqLit r.state "pending").delete
    fun r => eqLit r.state "running").delete fun r => eqLit r.state "holding") = _
  congr 1
  apply Jobs.ext
  simp only [Jobs.delete, List.filter_filter]
  refine List.filter_congr fun r _ => ?_
  cases hp : eqLit r.state "pending" <;> cases hr : eqLit r.state "running" <;>
    cases hh : eqLit r.state "holding" <;> simp [isLive, hp, hr, hh]

/-- No job is both. -/
theorem not_over_of_live {r : Row} (h : isLive r = true) : isOver r = false := by
  rw [Bool.eq_false_iff]
  intro ho
  simp only [isLive, isOver, Bool.or_eq_true, eqLit_word] at h ho
  rcases h with h | h | h <;> rcases ho with ho | ho <;> rw [h] at ho <;> exact absurd ho (by decide)

/-- Scrubbing some jobs leaves the files of the others. -/
theorem scrub_other {jobs : Jobs} {p : Row → Bool} {gone : List Row} {r : Row}
    (hgone : ∀ g ∈ gone, g ∈ jobs ∧ p g = true) (hr : r ∈ jobs) (hp : p r = false)
    (files : Nat → Files) : scrub gone files r.jid = files r.jid := by
  have hno : gone.any (fun g => g.jid == r.jid) = false := by
    rw [List.any_eq_false]
    intro g hg hj
    obtain ⟨hmem, hpg⟩ := hgone g hg
    rw [Jobs.eq_of_jid hmem hr (by simpa using hj)] at hpg
    rw [hp] at hpg
    cases hpg
  simp [scrub, hno]

/-! ## One run of the block -/

theorem mem_overRows {jobs : Jobs} {r : Row} (h : r ∈ overRows jobs) :
    r ∈ jobs ∧ isOver r = true := by
  rcases List.mem_append.mp h with h | h
  · obtain ⟨hr, hd⟩ := List.mem_filter.mp h
    exact ⟨hr, by simp [isOver, hd]⟩
  · obtain ⟨hr, hf⟩ := List.mem_filter.mp h
    exact ⟨hr, by simp [isOver, hf]⟩

/-- Whatever happens in the block, the files it removes are those of jobs that are over, and so are
    the rows it deletes. -/
theorem rotateBlock_removes (sqlite : OtherSql) (qpath rot : Path) (ids : Nat → Nat)
    (script : Script) (jobs : Jobs) (disk : Disk) :
    ∃ gone, (∀ g ∈ gone, g ∈ jobs ∧ isOver g = true) ∧
      (rotateBlock sqlite qpath rot ids script jobs disk).1.2.files = scrub gone disk.files ∧
      ∀ r ∈ jobs, isOver r = false → r ∈ (rotateBlock sqlite qpath rot ids script jobs disk).1.1 := by
  have hnothing : ∀ fs : Fs, ∃ gone, (∀ g ∈ gone, g ∈ jobs ∧ isOver g = true) ∧
      (⟨disk.files, fs⟩ : Disk).files = scrub gone disk.files ∧
      ∀ r ∈ jobs, isOver r = false → r ∈ jobs := fun fs =>
    ⟨[], List.forall_mem_nil _, rfl, fun r hr _ => hr⟩
  unfold rotateBlock
  dsimp only
  split
  · exact hnothing _
  · split
    · split
      · exact hnothing _
      · rw [delete_live]
        dsimp only
        split
        · exact ⟨_, fun g hg => mem_overRows (List.mem_of_mem_take hg), rfl, fun r hr _ => hr⟩
        · rw [delete_over]
          refine ⟨_, fun g hg => List.mem_filter.mp hg, rfl, fun r hr ho => ?_⟩
          exact Jobs.mem_delete.mpr ⟨hr, ho⟩
    · exact hnothing _

/-- `cp_r` to a name that is free makes a rotation there, or raises. -/
theorem cpR_free {qpath rot : Path} {copy : Copy} {q : Queue} {fs fs' : Fs} (hfree : fs rot = none)
    (h : cpR qpath rot copy q fs = some fs') :
    ∃ q', fs' = Function.update fs rot (some (.rotation q')) ∧ (copy = .done → q' = q) := by
  unfold cpR at h
  simp only [hfree] at h
  split at h
  · cases h
  · cases copy with
    | raises => cases h
    | done =>
      obtain ⟨-, h⟩ := Option.ite_none_right_eq_some.mp h
      exact ⟨q, (Option.some.inj h).symm, fun _ => rfl⟩
    | inside part =>
      obtain ⟨-, h⟩ := Option.ite_none_right_eq_some.mp h
      exact ⟨part, (Option.some.inj h).symm, fun h => nomatch h⟩

/-- Removing the copy again leaves the disk as it was. -/
theorem rmRf_update {fs : Fs} {rot : Path} (hfree : fs rot = none) (x : Option Node) :
    rmRf (Function.update fs rot x) rot = fs := by
  rw [rmRf, Function.update_idem, ← hfree, Function.update_eq_self]

theorem rmRf_free {fs : Fs} {rot : Path} (hfree : fs rot = none) : rmRf fs rot = fs := by
  rw [rmRf, ← hfree, Function.update_eq_self]

/-- What the block leaves when nothing is in its way. -/
def rotatedDisk (q : Queue) (fs : Fs) (rot : Path) : Disk :=
  ⟨(q.without isOver).files, Function.update fs rot (some (.rotation (q.without isLive)))⟩

/-- A block that fails before `@q.delete` leaves no trace. -/
theorem rotateBlock_early (sqlite : OtherSql) (qpath : Path) {rot : Path} (ids : Nat → Nat)
    {script : Script} (jobs : Jobs) {disk : Disk} (hfree : disk.fs rot = none)
    (h : script.copy = .raises ∨ script.rotqRaises = true) :
    (rotateBlock sqlite qpath rot ids script jobs disk).1.2 = disk ∧
      (rotateBlock sqlite qpath rot ids script jobs disk).2 ≠ none := by
  unfold rotateBlock
  dsimp only
  split
  · exact ⟨by rw [rmRf_free hfree], by simp⟩
  · rename_i fs hcp
    obtain ⟨q', rfl, -⟩ := cpR_free hfree hcp
    rw [Function.update_self]
    dsimp only
    rcases h with h | h
    · simp [h, cpR] at hcp
    · rw [if_pos h]
      exact ⟨by rw [rmRf_update hfree], by simp⟩

/-- A block that nothing disturbs does its work, unless it cannot make the copy. -/
theorem rotateBlock_through (sqlite : OtherSql) (qpath : Path) {rot : Path} (ids : Nat → Nat)
    {script : Script} (jobs : Jobs) {disk : Disk} (hfree : disk.fs rot = none)
    (hcopy : script.copy = .done) (hdelete : script.deleteRaises = none) :
    ((rotateBlock sqlite qpath rot ids script jobs disk).1.2 = disk ∧
      (rotateBlock sqlite qpath rot ids script jobs disk).2 ≠ none) ∨
    rotateBlock sqlite qpath rot ids script jobs disk =
      ((jobs.delete isOver, rotatedDisk ⟨jobs, disk.files, ids⟩ disk.fs rot), none) := by
  unfold rotateBlock
  dsimp only
  split
  · exact Or.inl ⟨by rw [rmRf_free hfree], by simp⟩
  · rename_i fs hcp
    obtain ⟨q', rfl, hq⟩ := cpR_free hfree hcp
    obtain rfl := hq hcopy
    rw [Function.update_self]
    dsimp only
    split
    · exact Or.inl ⟨by rw [rmRf_update hfree], by simp⟩
    · rw [delete_live, hdelete]
      dsimp only
      rw [delete_over, Function.update_idem]
      exact Or.inr rfl

/-! ## The transaction -/

/-- **Live jobs stay**, whatever fails in whichever attempt. -/
theorem transaction_keepsLive {sqlite : OtherSql} {retries : Nat} {qpath rot : Path} {q : Queue}
    {fs : Fs} {rounds : List (Round Script)} {r : Qdb.State Jobs Disk × Option Err}
    (h : transaction retries (rotateBlock sqlite qpath rot q.ids) rounds
      { db := q.jobs, priv := ⟨q.files, fs⟩ } = some r) :
    KeepsLive q ⟨r.1.db, r.1.priv.files, q.ids⟩ := by
  have hends := transaction_rule (I := fun db (disk : Disk) => KeepsLive q ⟨db, disk.files, q.ids⟩)
    (Q := fun db (disk : Disk) => KeepsLive q ⟨db, disk.files, q.ids⟩) ?_ rfl
    (fun r hr _ => ⟨hr, rfl⟩) h
  · by_cases he : r.2 = none
    · exact hends.1 he
    · exact hends.2 he
  · intro round _ a _ s hs
    -- one attempt: the database is the old one or the block's, and so are the files
    have hkeeps : KeepsLive q ⟨(attempt (rotateBlock sqlite qpath rot q.ids) a s).1.db,
        (attempt (rotateBlock sqlite qpath rot q.ids) a s).1.priv.files, q.ids⟩ := by
      intro r hr hl
      obtain ⟨hdb, hfiles⟩ := hs r hr hl
      obtain ⟨gone, hgone, hscrub, hrows⟩ :=
        rotateBlock_removes sqlite qpath rot q.ids a.script s.db s.priv
      have hblock : (rotateBlock sqlite qpath rot q.ids a.script s.db s.priv).1.2.files r.jid
          = q.files r.jid := by
        rw [hscrub, scrub_other hgone hdb (not_over_of_live hl)]
        exact hfiles
      rcases attempt_cases (rotateBlock sqlite qpath rot q.ids) a s with
        ⟨-, -, hd, hp⟩ | ⟨-, hd, hp⟩
      · refine ⟨?_, ?_⟩
        · show r ∈ (attempt _ a s).1.db
          rw [hd]
          exact hrows r hdb (not_over_of_live hl)
        · show (attempt _ a s).1.priv.files r.jid = _
          rw [hp]
          exact hblock
      · refine ⟨?_, ?_⟩
        · show r ∈ (attempt _ a s).1.db
          rw [hd]
          exact hdb
        · show (attempt _ a s).1.priv.files r.jid = _
          rcases hp with hp | hp
          · rw [hp]
            exact hfiles
          · rw [hp]
            exact hblock
    exact ⟨fun _ => hkeeps, fun _ => hkeeps⟩

/-- An attempt without faults is its block. -/
theorem attempt_noFaults {body : Body Jobs Disk Script} {a : Attempt Script} (ha : a.faults = {})
    (s : Qdb.State Jobs Disk) :
    (attempt body a s).2 = (body a.script s.db s.priv).2 := by
  obtain ⟨faults, script⟩ := a
  obtain rfl : faults = {} := ha
  simp only [attempt, aquireLock, connect, beginCommit]
  generalize body script s.db s.priv = x
  obtain ⟨⟨d, p⟩, e⟩ := x
  cases e <;> rfl

/-- **All or nothing**: as long as no attempt is disturbed after `@q.delete` has begun, a
    transaction that raises has left no trace, and one that returns has done its work once. -/
theorem transaction_clean {sqlite : OtherSql} {retries : Nat} {qpath rot : Path} {q : Queue}
    {fs : Fs} {rounds : List (Round Script)} {r : Qdb.State Jobs Disk × Option Err}
    (hfree : fs rot = none)
    (hclean : ∀ round ∈ rounds, ∀ a ∈ round.attempts, StopsEarly a ∨ GoesThrough a)
    (h : transaction retries (rotateBlock sqlite qpath rot q.ids) rounds
      { db := q.jobs, priv := ⟨q.files, fs⟩ } = some r) :
    (r.2 = none → r.1.db = q.jobs.delete isOver ∧ r.1.priv = rotatedDisk q fs rot) ∧
    (r.2 ≠ none → r.1.db = q.jobs ∧ r.1.priv = ⟨q.files, fs⟩) := by
  refine transaction_rule (I := fun db disk => db = q.jobs ∧ disk = ⟨q.files, fs⟩)
    (Q := fun db disk => db = q.jobs.delete isOver ∧ disk = rotatedDisk q fs rot) ?_ rfl
    ⟨rfl, rfl⟩ h
  rintro round hround a ha s ⟨hdb, hpriv⟩
  have hfree' : s.priv.fs rot = none := by
    rw [hpriv]
    exact hfree
  obtain ⟨hspecDb, hspecPriv, hspecNone⟩ := attempt_spec (rotateBlock sqlite qpath rot q.ids) a s
  -- an attempt whose block raised, or that did not get to it, changes nothing
  have hnothing : a.commits (rotateBlock sqlite qpath rot q.ids a.script s.db s.priv).2 = false →
      (a.runsBlock = true →
        (rotateBlock sqlite qpath rot q.ids a.script s.db s.priv).1.2 = s.priv) →
      Ends (fun db disk => db = q.jobs ∧ disk = ⟨q.files, fs⟩)
        (fun db disk => db = q.jobs.delete isOver ∧ disk = rotatedDisk q fs rot)
        (attempt (rotateBlock sqlite qpath rot q.ids) a s) := by
    intro hno hblock
    refine ⟨fun he => ?_, fun _ => ⟨?_, ?_⟩⟩
    · rw [hspecNone he] at hno
      cases hno
    · rw [hspecDb, hno, ← hdb]
      rfl
    · rw [hspecPriv, ← hpriv]
      split
      · rename_i hruns
        exact hblock hruns
      · rfl
  rcases hclean round hround a ha with (hearly | hearly) | ⟨hfaults, hcopy, hdelete⟩
  · -- it does not get to the block
    have hruns : a.runsBlock = false := by
      simp only [Bool.or_eq_true] at hearly
      simp only [Attempt.runsBlock, Attempt.opens, Attempt.connects, Bool.and_eq_false_iff,
        Bool.not_eq_false']
      tauto
    exact hnothing (by simp [Attempt.commits, hruns]) fun h => by simp [hruns] at h
  · -- the block raises
    obtain ⟨hdisk, he⟩ := rotateBlock_early sqlite qpath q.ids s.db hfree' hearly
    refine hnothing ?_ fun _ => hdisk
    simp [Attempt.commits, Option.isNone_iff_eq_none, he]
  · rcases rotateBlock_through sqlite qpath q.ids s.db hfree' hcopy hdelete with ⟨hdisk, he⟩ | hblock
    · refine hnothing ?_ fun _ => hdisk
      simp [Attempt.commits, Option.isNone_iff_eq_none, he]
    · -- it goes through
      have hcommits : a.commits (rotateBlock sqlite qpath rot q.ids a.script s.db s.priv).2 = true := by
        rw [hblock]
        simp [Attempt.commits, Attempt.runsBlock, Attempt.opens, Attempt.connects, hfaults]
      have hruns : a.runsBlock = true := by
        simp [Attempt.runsBlock, Attempt.opens, Attempt.connects, hfaults]
      refine ⟨fun _ => ⟨?_, ?_⟩, fun hne => ?_⟩
      · rw [hspecDb, hcommits, if_pos rfl, hblock, hdb]
      · rw [hspecPriv, hruns, if_pos rfl, hblock, hdb, hpriv]
      · rw [attempt_noFaults hfaults, hblock] at hne
        exact absurd rfl hne

/-! ## The disk after the command -/

/-- `mkdir_p` makes directories where there was nothing. -/
theorem mkdirP_cases (fs : Fs) (dir p : Path) :
    mkdirP fs dir p = fs p ∨
      (mkdirP fs dir p = some .directory ∧ fs p = none ∧ p ≠ [] ∧ p <:+ dir) := by
  unfold mkdirP
  split
  · exact Or.inl rfl
  · by_cases h : ((fs p).isNone && (!p.isEmpty && dir.tails.contains p)) = true
    · right
      refine ⟨if_pos h, ?_⟩
      simpa using h
    · exact Or.inl (if_neg h)

theorem stored_mkdirP (fs : Fs) (dir p : Path) : stored (mkdirP fs dir) p = stored fs p := by
  unfold stored
  rcases mkdirP_cases fs dir p with h | ⟨h, hnone, -⟩
  · rw [h]
  · rw [h, hnone]

/-- It does not make what is to be in the directory. -/
theorem mkdirP_tail {fs : Fs} {dir p : Path} (hp : p = [] ∨ dir.length < p.length) :
    mkdirP fs dir p = fs p := by
  rcases mkdirP_cases fs dir p with h | ⟨-, -, hne, hsuf⟩
  · exact h
  · rcases hp with hp | hp
    · exact absurd hp hne
    · have := hsuf.length_le
      omega

theorem tgz_ne (rot : Path) : tgz rot ≠ rot := by
  cases rot with
  | nil => simp [tgz]
  | cons base dir =>
    intro h
    have hlen := congrArg String.length (List.cons.inj h).1
    simp at hlen

/-- What is stored once the copy has been made. -/
theorem stored_update (fs : Fs) (rot p : Path) (q : Queue) :
    stored (Function.update fs rot (some (.rotation q))) p
      = if p = rot then some q else stored fs p := by
  unfold stored
  by_cases hp : p = rot
  · rw [hp, Function.update_self, if_pos rfl]
  · rw [Function.update_of_ne hp, if_neg hp]

/-- `tar` succeeds: the archive takes the place of the directory, and of whatever file had its
    name. -/
theorem stored_pack_packed {rot : Path} (req : Request) {fs : Fs} {q : Queue}
    (hplain : plainName rot = true) (hrot : fs rot = some (.rotation q))
    (htgz : isDirectory (fs (tgz rot)) = false) (htar : req.tar = .packed) (p : Path) :
    stored (pack rot req fs) p
      = if p = tgz rot then some q else if p = rot then none else stored fs p := by
  have hpack : pack rot req fs
      = rmRf (Function.update fs (tgz rot) (some (.archive q))) rot := by
    simp [pack, hplain, tarCvfz, htgz, hrot, htar]
  rw [hpack]
  unfold stored rmRf
  by_cases hp : p = rot
  · rw [hp, if_neg (tgz_ne rot).symm, if_pos rfl, Function.update_self]
  · rw [Function.update_of_ne hp, if_neg hp]
    by_cases ht : p = tgz rot
    · rw [ht, Function.update_self, if_pos rfl]
    · rw [Function.update_of_ne ht, if_neg ht]

/-- **The rotation is kept**, as a directory or as an archive, and nothing else is touched, when the
    name of the archive was free. -/
theorem stored_pack {rot : Path} {req : Request} {fs : Fs} {q : Queue}
    (hplain : plainName rot = true) (hfree : fs rot = none) (htgz : fs (tgz rot) = none) :
    ∃ place, stored fs place = none ∧ ∀ p,
      stored (pack rot req (Function.update fs rot (some (.rotation q)))) p
        = if p = place then some q else stored fs p := by
  have hrot : stored fs rot = none := by simp [stored, hfree]
  have hnew : stored fs (tgz rot) = none := by simp [stored, htgz]
  have htgz' : Function.update fs rot (some (.rotation q)) (tgz rot) = none := by
    rw [Function.update_of_ne (tgz_ne rot), htgz]
  cases htar : req.tar with
  | packed =>
    refine ⟨tgz rot, hnew, fun p => ?_⟩
    rw [stored_pack_packed req hplain (Function.update_self rot _ fs) (by rw [htgz']; rfl) htar,
      stored_update]
    by_cases ht : p = tgz rot
    · rw [if_pos ht, if_pos ht]
    · rw [if_neg ht, if_neg ht]
      by_cases hp : p = rot
      · rw [if_pos hp, hp, hrot]
      · rw [if_neg hp, if_neg hp]
  | failed wrote =>
    refine ⟨rot, hrot, fun p => ?_⟩
    cases wrote with
    | false =>
      have hpack : pack rot req (Function.update fs rot (some (.rotation q)))
          = Function.update fs rot (some (.rotation q)) := by
        simp [pack, hplain, tarCvfz, htgz', htar, isDirectory]
      rw [hpack, stored_update]
    | true =>
      have hpack : pack rot req (Function.update fs rot (some (.rotation q)))
          = Function.update (Function.update fs rot (some (.rotation q))) (tgz rot)
            (some .file) := by
        simp [pack, hplain, tarCvfz, htgz', htar, isDirectory]
      rw [hpack, ← stored_update]
      by_cases ht : p = tgz rot
      · unfold stored
        rw [ht, Function.update_self, htgz']
      · unfold stored
        rw [Function.update_of_ne ht]

/-! ## Every run of the command -/

variable {cfg}

/-- What a rotation whose attempts are in order does: it aborts, or fails without a trace, or does
    all its work. -/
theorem rotate_cases {s t : State} {req : Request}
    (hclean : ∀ round ∈ req.rounds, ∀ a ∈ round.attempts, StopsEarly a ∨ GoesThrough a)
    (hst : rotate cfg s req = some t) :
    (t.queue = s.queue ∧ t.nextId = s.nextId ∧ t.removed = s.removed ∧
      ∀ p, stored t.fs p = stored s.fs p) ∨
    (s.fs (rotation cfg s req) = none ∧ t.queue = s.queue.without isOver ∧ t.nextId = s.nextId ∧
      t.removed = s.removed ++ removedBy s.queue (s.queue.jobs.delete isOver) ∧
      t.fs = pack (rotation cfg s req) req
        (Function.update (mkdirP s.fs (rotation cfg s req).tail) (rotation cfg s req)
          (some (.rotation (s.queue.without isLive))))) := by
  unfold rotate at hst
  dsimp only at hst
  split at hst
  · obtain rfl := Option.some.inj hst
    exact Or.inl ⟨rfl, rfl, rfl, fun _ => rfl⟩
  · rename_i hexists
    have hfree : s.fs (rotation cfg s req) = none := by simpa using hexists
    have hfree' : mkdirP s.fs (rotation cfg s req).tail (rotation cfg s req) = none := by
      rw [mkdirP_tail, hfree]
      cases rotation cfg s req <;> simp
    obtain ⟨⟨r, e⟩, htx, rfl⟩ := Option.map_eq_some_iff.mp hst
    obtain ⟨hok, herr⟩ := transaction_clean hfree' hclean htx
    cases e with
    | none =>
      obtain ⟨hdb, hpriv⟩ := hok rfl
      right
      dsimp only at hdb hpriv ⊢
      rw [hdb, hpriv]
      exact ⟨hfree, rfl, rfl, rfl, rfl⟩
    | some e =>
      obtain ⟨hdb, hpriv⟩ := herr (by simp)
      left
      dsimp only at hdb hpriv ⊢
      rw [hdb, hpriv]
      refine ⟨rfl, rfl, ?_, fun p => stored_mkdirP _ _ p⟩
      have hnil : removedBy s.queue s.queue.jobs = [] := by simp [removedBy]
      rw [hnil, List.append_nil]

/-- **Live jobs stay**, in every run of the command. -/
theorem rotate_keepsLive {s t : State} {req : Request} (hst : rotate cfg s req = some t) :
    KeepsLive s.queue t.queue := by
  unfold rotate at hst
  dsimp only at hst
  split at hst
  · obtain rfl := Option.some.inj hst
    exact fun r hr _ => ⟨hr, rfl⟩
  · obtain ⟨⟨r, e⟩, htx, rfl⟩ := Option.map_eq_some_iff.mp hst
    exact transaction_keepsLive htx

/-! ## The invariant -/

structure Inv (s : State) : Prop where
  id_lt : ∀ r ∈ s.queue.jobs, s.queue.ids r.jid < s.nextId
  id_inj : ∀ r ∈ s.queue.jobs, ∀ r' ∈ s.queue.jobs,
    s.queue.ids r.jid = s.queue.ids r'.jid → r = r'
  /-- A removed job does not come back. -/
  gone : ∀ job ∈ s.removed, job.id < s.nextId ∧ ∀ r ∈ s.queue.jobs, s.queue.ids r.jid ≠ job.id
  was_over : ∀ job ∈ s.removed, isOver job.row = true
  /-- The jobs that are over in a rotation have been removed from the queue. -/
  known : ∀ p q, stored s.fs p = some q → ∀ r ∈ q.jobs, isOver r = true →
    ∃ job ∈ s.removed, job.id = q.ids r.jid
  kept : ∀ job ∈ s.removed, ∃! p, Has s.fs p job

theorem mem_removedBy {q : Queue} {job : Record} :
    job ∈ removedBy q (q.jobs.delete isOver) ↔
      ∃ r ∈ q.jobs, isOver r = true ∧ job = ⟨q.ids r.jid, r, q.files r.jid⟩ := by
  simp only [removedBy, List.mem_map, List.mem_filter, decide_eq_true_eq]
  constructor
  · rintro ⟨r, ⟨hr, hnot⟩, rfl⟩
    refine ⟨r, hr, ?_, rfl⟩
    by_contra ho
    exact hnot (Jobs.mem_delete.mpr ⟨hr, by simpa using ho⟩)
  · rintro ⟨r, hr, ho, rfl⟩
    refine ⟨r, ⟨hr, fun hmem => ?_⟩, rfl⟩
    have := (Jobs.mem_delete.mp hmem).2
    rw [ho] at this
    cases this

/-- What a rotation takes from the queue it has, row and files. -/
theorem has_without {q : Queue} {job : Record}
    (h : job ∈ removedBy q (q.jobs.delete isOver)) :
    job.row ∈ (q.without isLive).jobs ∧ (q.without isLive).ids job.row.jid = job.id ∧
      (q.without isLive).files job.row.jid = job.files := by
  obtain ⟨r, hr, ho, rfl⟩ := mem_removedBy.mp h
  have hlive : isLive r = false := by
    rw [Bool.eq_false_iff]
    intro hl
    rw [not_over_of_live hl] at ho
    cases ho
  refine ⟨Jobs.mem_delete.mpr ⟨hr, hlive⟩, rfl, ?_⟩
  exact scrub_other (fun g hg => List.mem_filter.mp hg) hr hlive q.files

/-- A step that stores what it removes at a free place, and nothing else. -/
theorem Inv.rotated {s t : State} (hi : Inv s) {place : Path}
    (hqueue : t.queue = s.queue.without isOver) (hnext : t.nextId = s.nextId)
    (hremoved : t.removed = s.removed ++ removedBy s.queue (s.queue.jobs.delete isOver))
    (hplace : stored s.fs place = none)
    (hstored : ∀ p, stored t.fs p
      = if p = place then some (s.queue.without isLive) else stored s.fs p) : Inv t := by
  have hsub : ∀ r ∈ t.queue.jobs, r ∈ s.queue.jobs ∧ isOver r = false := by
    intro r hr
    rw [hqueue] at hr
    exact Jobs.mem_delete.mp hr
  have hids : t.queue.ids = s.queue.ids := by rw [hqueue]; rfl
  -- no job that was removed before is in the new rotation, and none removed now in an old one
  have hold : ∀ job ∈ s.removed, ∀ p, Has t.fs p job ↔ Has s.fs p job := by
    intro job hjob p
    unfold Has
    rw [hstored p]
    by_cases hp : p = place
    · rw [if_pos hp, hp, hplace]
      constructor
      · rintro ⟨q, hq, hrow, hid, -⟩
        obtain rfl := Option.some.inj hq
        exact absurd hid ((hi.gone job hjob).2 job.row (Jobs.mem_delete.mp hrow).1)
      · rintro ⟨q, hq, -⟩
        cases hq
    · rw [if_neg hp]
  have hnew : ∀ job ∈ removedBy s.queue (s.queue.jobs.delete isOver), ∀ p,
      Has t.fs p job ↔ p = place := by
    intro job hjob p
    unfold Has
    rw [hstored p]
    by_cases hp : p = place
    · rw [if_pos hp]
      exact ⟨fun _ => hp, fun _ => ⟨_, rfl, has_without hjob⟩⟩
    · rw [if_neg hp]
      refine ⟨?_, fun h => absurd h hp⟩
      rintro ⟨q, hq, hrow, hid, -⟩
      obtain ⟨r, hr, ho, rfl⟩ := mem_removedBy.mp hjob
      obtain ⟨job', hjob', hid'⟩ := hi.known p q hq r hrow ho
      exact absurd (hid.symm.trans hid'.symm) ((hi.gone job' hjob').2 r hr)
  constructor
  · intro r hr
    rw [hids, hnext]
    exact hi.id_lt r (hsub r hr).1
  · intro r hr r' hr'
    rw [hids]
    exact hi.id_inj r (hsub r hr).1 r' (hsub r' hr').1
  · intro job hjob
    rw [hnext, hids]
    rw [hremoved] at hjob
    rcases List.mem_append.mp hjob with hjob | hjob
    · exact ⟨(hi.gone job hjob).1, fun r hr => (hi.gone job hjob).2 r (hsub r hr).1⟩
    · obtain ⟨r, hr, ho, rfl⟩ := mem_removedBy.mp hjob
      refine ⟨hi.id_lt r hr, fun r' hr' heq => ?_⟩
      obtain rfl := hi.id_inj r' (hsub r' hr').1 r hr heq
      rw [(hsub r' hr').2] at ho
      cases ho
  · intro job hjob
    rw [hremoved] at hjob
    rcases List.mem_append.mp hjob with hjob | hjob
    · exact hi.was_over job hjob
    · obtain ⟨r, _, ho, rfl⟩ := mem_removedBy.mp hjob
      exact ho
  · intro p q hq r hr ho
    rw [hstored p] at hq
    rw [hremoved]
    split at hq
    · obtain rfl := Option.some.inj hq
      exact ⟨_, List.mem_append_right _
        (mem_removedBy.mpr ⟨r, (Jobs.mem_delete.mp hr).1, ho, rfl⟩), rfl⟩
    · obtain ⟨job, hjob, hid⟩ := hi.known p q hq r hr ho
      exact ⟨job, List.mem_append_left _ hjob, hid⟩
  · intro job hjob
    rw [hremoved] at hjob
    rcases List.mem_append.mp hjob with hjob | hjob
    · obtain ⟨p, hp, huniq⟩ := hi.kept job hjob
      exact ⟨p, (hold job hjob p).mpr hp, fun p' hp' => huniq p' ((hold job hjob p').mp hp')⟩
    · exact ⟨place, (hnew job hjob place).mpr rfl, fun p' hp' => (hnew job hjob p').mp hp'⟩

/-- Whatever else happens to the queue, a new job is none of those that were removed. -/
theorem Inv.other {s : State} (hi : Inv s) (jobs : Jobs) (files : Nat → Files) :
    Inv { s with queue := ⟨jobs, files, freshIds s⟩, nextId := s.nextId + jobs.maxJid + 1 } := by
  -- a jid that was there keeps its identity, and a new one gets one that was never used
  have hcases : ∀ r ∈ jobs,
      (∃ r₀ ∈ s.queue.jobs, r₀.jid = r.jid ∧ freshIds s r.jid = s.queue.ids r₀.jid) ∨
        freshIds s r.jid = s.nextId + r.jid := by
    intro r _
    unfold freshIds
    by_cases h : (s.queue.jobs.rows.any fun x => x.jid == r.jid) = true
    · obtain ⟨r₀, hr₀, hjid⟩ := List.any_eq_true.mp h
      have hjid : r₀.jid = r.jid := by simpa using hjid
      exact Or.inl ⟨r₀, hr₀, hjid, by rw [if_pos h, hjid]⟩
    · exact Or.inr (if_neg h)
  constructor
  · intro r hr
    have hmax : r.jid ≤ jobs.maxJid := Jobs.jid_le_maxJid hr
    show freshIds s r.jid < s.nextId + jobs.maxJid + 1
    rcases hcases r hr with ⟨r₀, hr₀, -, hid⟩ | hid
    · have := hi.id_lt r₀ hr₀
      omega
    · omega
  · intro r hr r' hr' heq
    have heq : freshIds s r.jid = freshIds s r'.jid := heq
    have hsame : r.jid = r'.jid → r = r' := Jobs.eq_of_jid hr hr'
    apply hsame
    rcases hcases r hr with ⟨r₀, hr₀, hjid, hid⟩ | hid
    · have hlt := hi.id_lt r₀ hr₀
      rcases hcases r' hr' with ⟨r₁, hr₁, hjid', hid'⟩ | hid'
      · have := hi.id_inj r₀ hr₀ r₁ hr₁ (by rw [← hid, ← hid', heq])
        rw [← hjid, ← hjid', this]
      · omega
    · rcases hcases r' hr' with ⟨r₁, hr₁, hjid', hid'⟩ | hid'
      · have hlt := hi.id_lt r₁ hr₁
        omega
      · omega
  · intro job hjob
    obtain ⟨hlt, hne⟩ := hi.gone job hjob
    refine ⟨by show _ < s.nextId + jobs.maxJid + 1; omega, fun r hr => ?_⟩
    show freshIds s r.jid ≠ job.id
    rcases hcases r hr with ⟨r₀, hr₀, -, hid⟩ | hid
    · rw [hid]
      exact hne r₀ hr₀
    · omega
  · exact hi.was_over
  · exact hi.known
  · exact hi.kept

theorem Inv.step {s t : State} {a : Label} (hi : Inv s) (hg : Careful cfg s a)
    (hst : step cfg s a = some t) : Inv t := by
  cases a with
  | other jobs files =>
    obtain rfl := Option.some.inj hst
    exact hi.other jobs files
  | rotate req =>
    rcases rotate_cases hg.attempts hst with
      ⟨hqueue, hnext, hremoved, hstored⟩ | ⟨hfree, hqueue, hnext, hremoved, hfs⟩
    · -- nothing that counts has changed
      have hhas : ∀ p job, Has t.fs p job ↔ Has s.fs p job := fun p job => by
        unfold Has
        rw [hstored p]
      constructor
      · rw [hqueue, hnext]
        exact hi.id_lt
      · rw [hqueue]
        exact hi.id_inj
      · rw [hqueue, hnext, hremoved]
        exact hi.gone
      · rw [hremoved]
        exact hi.was_over
      · intro p q hq
        rw [hremoved]
        exact hi.known p q (hstored p ▸ hq)
      · intro job hjob
        rw [hremoved] at hjob
        obtain ⟨p, hp, huniq⟩ := hi.kept job hjob
        exact ⟨p, (hhas p job).mpr hp, fun p' hp' => huniq p' ((hhas p' job).mp hp')⟩
    · have hfree' : mkdirP s.fs (rotation cfg s req).tail (rotation cfg s req) = none := by
        rw [mkdirP_tail, hfree]
        cases rotation cfg s req <;> simp
      have htgz' : mkdirP s.fs (rotation cfg s req).tail (tgz (rotation cfg s req)) = none := by
        rw [mkdirP_tail, hg.fresh]
        cases rotation cfg s req <;> simp [tgz]
      obtain ⟨place, hplace, hstored⟩ := stored_pack (q := s.queue.without isLive) hg.plain hfree'
        htgz'
      rw [stored_mkdirP] at hplace
      refine hi.rotated hqueue hnext hremoved hplace fun p => ?_
      rw [hfs, hstored p, stored_mkdirP]

theorem Inv.initial {s : State} (h : Initial cfg s) : Inv s where
  id_lt := h.id_lt
  id_inj := h.id_inj
  gone job hjob := by
    rw [h.none_removed] at hjob
    cases hjob
  was_over job hjob := by
    rw [h.none_removed] at hjob
    cases hjob
  known p q hq := by
    rw [h.none_stored] at hq
    cases hq
  kept job hjob := by
    rw [h.none_removed] at hjob
    cases hjob

/-- **Rotation loses nothing.**  After every sequence of rotations, each of them `Clean`, and of
    other operations on the queue: a job that some rotation has removed is in exactly one rotation
    directory or archive, row and files; and every rotation leaves the jobs that are pending,
    holding or running in the queue, with their files. -/
theorem rotation_loses_nothing (cfg : Config) (s : State)
    (h : Reach (Initial cfg) (step cfg) (Careful cfg) s) :
    (∀ job ∈ s.removed, isOver job.row = true ∧ ∃! p, Has s.fs p job) ∧
      ∀ req t, step cfg s (.rotate req) = some t → KeepsLive s.queue t.queue := by
  have hi : Inv s := Reach.invariant (fun _ => Inv.initial) (fun _ _ _ hi hg => hi.step hg) h
  exact ⟨fun job hjob => ⟨hi.was_over job hjob, hi.kept job hjob⟩, fun _ _ => rotate_keepsLive⟩

/-! ## One name, twice -/

/-- A queue `/home/q`. -/
def homeQueue : Config where
  sqlite := fun _ _ => .error "not run"
  retries := 4
  qpath := ["q", "home"]

/-- A finished job with jid 1. -/
def finishedJob (command : String) : Row :=
  ⟨1, some "0", some "finished", some "2005-07-01", some "2005-07-01", some "2005-07-01", some "1",
    some "node1", some "node1", some "stdin/1", some "stdout/1", some "stderr/1", some "data/1",
    some "100", some "0", none, none, some command⟩

def onlyJob (command : String) : Jobs := ⟨[finishedJob command], by simp⟩

def output (text : String) : Nat → Files := fun jid => if jid = 1 then { stdout := some text } else {}

/-- It has one finished job, and there is no rotation. -/
def home : State where
  queue := ⟨onlyJob "make", output "made", fun _ => 0⟩
  fs := fun p => if p = [] ∨ p = ["home"] ∨ p = ["q", "home"] then some .directory else none
  nextId := 1
  removed := []

theorem initial_home : Initial homeQueue home where
  queue_there := rfl
  none_stored p := by
    by_cases hp : p = [] ∨ p = ["home"] ∨ p = ["q", "home"]
    · simp [stored, home, hp]
    · simp [stored, home, hp]
  none_removed := rfl
  id_lt _ _ := Nat.zero_lt_one
  id_inj r hr r' hr' _ := (List.mem_singleton.mp hr).trans (List.mem_singleton.mp hr').symm

/-- `rq q rotate r`, with nothing in the way. -/
def rotateR : Request where
  arg := some ["r", "home"]
  cwd := ["home"]
  stamp := "20050701000000"
  rounds := [{ attempts := [{ script := {} }] }]
  tar := .packed
  shell := (fun _ => none, false)

/-- The job that is rotated first. -/
def firstJob : Record := ⟨0, finishedJob "make", { stdout := some "made" }⟩

theorem rotateR_attempts : ∀ round ∈ rotateR.rounds, ∀ a ∈ round.attempts,
    StopsEarly a ∨ GoesThrough a := by
  intro round hround a ha
  rw [List.mem_singleton.mp hround] at ha
  rw [List.mem_singleton.mp ha]
  exact Or.inr ⟨rfl, rfl, rfl⟩

/-- What `rotate r` leaves at every path, when it succeeds. -/
theorem stored_rotateR {s t : State} (hst : step homeQueue s (.rotate rotateR) = some t)
    (hname : rotation homeQueue s rotateR = ["r", "home"])
    (htgz : isDirectory (s.fs ["r.tgz", "home"]) = false) (hsome : t.removed ≠ s.removed)
    (p : Path) :
    stored t.fs p = if p = ["r.tgz", "home"] then some (s.queue.without isLive)
      else if p = ["r", "home"] then none else stored s.fs p := by
  rcases rotate_cases rotateR_attempts hst with ⟨-, -, hsame, -⟩ | ⟨-, -, -, -, hfs⟩
  · exact absurd hsame hsome
  · rw [hname] at hfs
    have hdir : isDirectory (Function.update (mkdirP s.fs ["home"]) ["r", "home"]
        (some (.rotation (s.queue.without isLive))) ["r.tgz", "home"]) = false := by
      rw [Function.update_of_ne (by decide), mkdirP_tail (Or.inr (by decide)), htgz]
    rw [hfs, List.tail_cons, stored_pack_packed rotateR (by decide)
      (Function.update_self _ _ _) hdir rfl, stored_update, stored_mkdirP]
    show (if p = ["r.tgz", "home"] then _ else _) = _
    by_cases hp : p = ["r", "home"]
    · simp [hp]
    · simp [hp]

/-- What is observed of the queue after the first rotation. -/
def Rotated (s : State) : Prop :=
  s.removed = [firstJob] ∧ s.nextId = 1 ∧ s.queue.jobs.rows = [] ∧
    rotation homeQueue s rotateR = ["r", "home"] ∧ isDirectory (s.fs ["r.tgz", "home"]) = false

instance (s : State) : Decidable (Rotated s) := inferInstanceAs (Decidable (_ ∧ _))

theorem first_rotation : ∃ s, step homeQueue home (.rotate rotateR) = some s ∧ Rotated s := by
  obtain ⟨s, hs, hobs⟩ : ∃ s, exec (step homeQueue) ([] ++ [.rotate rotateR]) home = some s ∧
      decide (Rotated s) = true := exists_of_any (by decide)
  obtain ⟨u, hu, hst⟩ := exec_concat hs
  obtain rfl := Option.some.inj hu
  exact ⟨s, hst, of_decide_eq_true hobs⟩

/-- **The second rotation `r` overwrites the archive of the first.**  Between the two the queue gets
    another job, which is given the jid 1 again. -/
theorem second_rotation_overwrites :
    ∃ s, Reach (Initial homeQueue) (step homeQueue) (fun _ _ => True) s ∧ firstJob ∈ s.removed ∧
      isOver firstJob.row = true ∧ ∀ p, ¬ Has s.fs p firstJob := by
  obtain ⟨s₃, hs₃, hobs⟩ : ∃ s, exec (step homeQueue)
      ([.rotate rotateR, .other (onlyJob "test") (output "tested")] ++ [.rotate rotateR]) home
        = some s ∧ decide (s.removed.length = 2 ∧ firstJob ∈ s.removed) = true :=
    exists_of_any (by decide)
  obtain ⟨hlen, hfirst⟩ := of_decide_eq_true hobs
  refine ⟨s₃, Reach.exec (Reach.init initial_home) (along_true _ _) hs₃, hfirst, by decide, ?_⟩
  -- the three steps
  obtain ⟨s₁, hst₁, hremoved, hnext, hrows, hname, htgz⟩ := first_rotation
  obtain ⟨s₂, hs₂, hst₃⟩ := exec_concat hs₃
  have hst₂ : step homeQueue s₁ (.other (onlyJob "test") (output "tested")) = some s₂ := by
    simpa [exec, hst₁] using hs₂
  obtain rfl := Option.some.inj hst₂
  have hid : freshIds s₁ 1 = 2 := by simp [freshIds, hrows, hnext]
  have hsome₁ : s₁.removed ≠ home.removed := by
    rw [hremoved]
    exact List.cons_ne_nil _ _
  have hsome₃ : s₃.removed ≠ s₁.removed := by
    intro heq
    rw [heq, hremoved] at hlen
    cases hlen
  rintro p ⟨q, hq, -, hids, -⟩
  rw [stored_rotateR hst₃ hname htgz hsome₃ p] at hq
  split at hq
  · -- the archive has the second job
    obtain rfl := Option.some.inj hq
    have hids : freshIds s₁ 1 = 0 := hids
    omega
  · split at hq
    · cases hq
    · -- and nothing is stored anywhere else
      rename_i hp hr
      have hq : stored s₁.fs p = some q := hq
      rw [stored_rotateR hst₁ rfl rfl hsome₁ p, if_neg hp, if_neg hr,
        initial_home.none_stored] at hq
      cases hq

/-- The first rotation by itself. -/
theorem one_rotation_keeps : ∃ s, step homeQueue home (.rotate rotateR) = some s ∧
    s.removed = [firstJob] ∧ ∃! p, Has s.fs p firstJob := by
  obtain ⟨s, hst, hremoved, -⟩ := first_rotation
  have hclean : Clean homeQueue home rotateR := ⟨by decide, rfl, rotateR_attempts⟩
  have hreach : Reach (Initial homeQueue) (step homeQueue) (Careful homeQueue) s :=
    Reach.step (Reach.init initial_home) (a := .rotate rotateR) hclean hst
  refine ⟨s, hst, hremoved, ?_⟩
  exact ((rotation_loses_nothing homeQueue s hreach).1 firstJob (by rw [hremoved]; simp)).2

end RubyQueue.Rotation
