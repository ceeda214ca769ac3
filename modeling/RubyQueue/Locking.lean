/-
  Which statements are executed under which lock?

  The lock of a queue is taken in `QDB#aquire_lock` and nowhere else.  Whether it is taken is decided
  by three layers of flags: `Feeder#transaction`, `JobQueue#transaction` and `ro_transaction`, and
  `QDB#transaction`; whether a statement is executed at all, by the flag of the last.  Every mode is
  written here as the calls it makes, with everything that can raise raising where it likes and every
  transaction retried as often as it likes.

  Five things escape the discipline.  `QDB#vacuum` and `QDB#recover!` set the flag without taking the
  lock: `delete` and `recover` call them, and `snapshot` does when a copy does not pass its check.
  `rotate` copies the queue directory inside its transaction, and closing the copied lock file gives
  up the lock.  The files a job brings along are opened and closed in the transaction as well, and
  nobody asks whether one of them is the lock file.  A text of `query` or `status` that is more than a
  select is executed under a shared lock.  `discipline_iff` says that there is nothing else.
-/
import RubyQueue.Base.Behaviour
import RubyQueue.Base.RecordLock
import RubyQueue.ReadOnly

namespace RubyQueue.Locking

open RubyQueue.Behaviour RubyQueue.ReadOnly RubyQueue.JobQueue
open RubyQueue.Quote (Text)
open RubyQueue.RecordLock (Kind)
open RubyQueue.Sqlite hiding Kind

/-! ## The process -/

/-- The queues a process works on: the one it is given, the snapshot it takes, the rotation it
    makes. -/
inductive Queue
  | live
  | snapshot
  | rotation
deriving DecidableEq, Repr

/-- A `JobQueue` with its `QDB`: the flags of both, and the lock the process holds on its lock
    file. -/
structure Handle where
  inTransaction : Bool := false
  inRoTransaction : Bool := false
  qdbInTransaction : Bool := false
  held : Option Kind := none
deriving DecidableEq, Repr

/-- The process.  `feeding` is the flag of the `Feeder`; `calm` says that no other process replaces
    the lock files by a lockd recovery while it runs. -/
structure World where
  live : Handle := {}
  snapshot : Handle := {}
  rotation : Handle := {}
  feeding : Bool := false
  calm : Bool := true
deriving DecidableEq, Repr

def World.handle (w : World) : Queue → Handle
  | .live => w.live
  | .snapshot => w.snapshot
  | .rotation => w.rotation

def World.modify (w : World) (f : Handle → Handle) : Queue → World
  | .live => { w with live := f w.live }
  | .snapshot => { w with snapshot := f w.snapshot }
  | .rotation => { w with rotation := f w.rotation }

/-- The process gets this lock, or gives its lock up. -/
def World.hold (w : World) (k : Option Kind) (q : Queue) : World := w.modify ({ · with held := k }) q

/-- A statement: on which queue, whether it can modify the db, and the lock held at that moment. -/
structure Event where
  queue : Queue
  writes : Bool
  held : Option Kind
deriving DecidableEq, Repr

abbrev Code := Program World Event

/-! ## `QDB` -/

/-- `QDB#execute`.  It raises when the flag is not set, and whatever comes before it may raise. -/
def execute (q : Queue) (writes : Bool) : Code := fun w o =>
  (o.state = w ∧ o.trace = [⟨q, writes, (w.handle q).held⟩] ∧ (w.handle q).qdbInTransaction = true) ∨
  (o.state = w.hold none q ∧ o.trace = [⟨q, writes, none⟩] ∧ (w.handle q).qdbInTransaction = true ∧
    w.calm = false) ∨
  raise w o

/-- `QDB#aquire_lock` and `connect`: it may not get there. -/
def aquireLock (k : Kind) (q : Queue) (a : Code) : Code :=
  either raise (bracket (fun w => w.hold (some k) q) (fun w => w.hold none q) a)

/-- The flag of `QDB`. -/
def World.flag (w : World) (b : Bool) (q : Queue) : World := w.modify ({ · with qdbInTransaction := b }) q

/-- The block of `QDB#transaction`, with `begin` and `commit` unless it is read only. -/
def block (q : Queue) (a : Code) : Kind → Code
  | .exclusive => andThen (execute q false) (andThen a (execute q true))
  | .shared => a

/-- `QDB#transaction`; `transaction_wrap` and `lockd_recover_wrap` retry it. -/
def qdbTransaction (k : Kind) (q : Queue) (a : Code) : Code := fun w =>
  if (w.handle q).qdbInTransaction then raise w
  else bracket (fun w => w.flag true q) (fun w => w.flag false q)
    (Retried (aquireLock k q (block q a k))) w

/-- `QDB#vacuum`, which executes a statement that rewrites the db. -/
def vacuum (q : Queue) : Code := fun w =>
  if (w.handle q).qdbInTransaction then raise w
  else bracket (fun w => w.flag true q) (fun w => w.flag false q) (execute q true) w

/-- `QDB.integrity_check`, which opens the db by itself. -/
def integrityCheck (q : Queue) : Code := fun w o =>
  o.state = w ∧ (o.trace = [⟨q, false, (w.handle q).held⟩] ∨ (o.trace = [] ∧ o.ok = false))

/-- `QDB#recover!`; its `sqlite … .tables` is another program. -/
def recover (q : Queue) : Code := andThen (vacuum q) (integrityCheck q)

/-- `QDB#write_lock`. -/
def writeLock (q : Queue) (a : Code) : Code := Retried (aquireLock .exclusive q a)

/-! ## `JobQueue` and `Feeder` -/

/-- `JobQueue#transaction`. -/
def transaction (q : Queue) (a : Code) : Code := fun w =>
  if (w.handle q).inRoTransaction then raise w
  else if (w.handle q).inTransaction then a w
  else bracket (fun w => w.modify ({ · with inTransaction := true }) q)
    (fun w => w.modify ({ · with inTransaction := false }) q) (qdbTransaction .exclusive q a) w

/-- `JobQueue#ro_transaction`. -/
def roTransaction (q : Queue) (a : Code) : Code := fun w =>
  if (w.handle q).inRoTransaction || (w.handle q).inTransaction then a w
  else bracket (fun w => w.modify ({ · with inRoTransaction := true }) q)
    (fun w => w.modify ({ · with inRoTransaction := false }) q) (qdbTransaction .shared q a) w

/-- `Feeder#transaction`. -/
def feederTransaction (q : Queue) (a : Code) : Code := fun w =>
  if w.feeding then a w
  else bracket (fun w => { w with feeding := true }) (fun w => { w with feeding := false })
    (transaction q a) w

/-! ## Files -/

/-- The lock that is left when a file was closed: none, when it was the lock file. -/
def World.closed (w : World) (isLock : Bool) (q : Queue) : World := bif isLock then w.hold none q else w

/-- A file or a directory is opened, copied and closed, or it is moved away, unless an error comes
    first.  `isLock` says that it is the lock file of the queue, or that the lock file is in it. -/
def copyFile (q : Queue) (isLock : Bool) : Code := fun w o =>
  o.trace = [] ∧ (o.state = w.closed isLock q ∨ (o.state = w ∧ o.ok = false))

/-- `FileUtils::cp_r @qpath` and the copies of `snapshot`. -/
def copyLive : Code := copyFile .live true

/-- `JobQueue#tmp_stdin`, which closes what it opened after the block. -/
def tmpStdin (q : Queue) (isLock : Bool) (a : Code) : Code :=
  either raise (bracket (fun w => w) (fun w => w.closed isLock q) a)

/-- Which files of a job are, or hold, the lock file of the queue. -/
structure Files where
  stdin : Bool := false
  data : Bool := false
deriving DecidableEq, Repr

def Files.hasLock (f : Files) : Bool := f.stdin || f.data

/-! ## The modes -/

/-- A statement or a block that is left out under some condition. -/
def optional (a : Code) : Code := either ret a

/-- No statement of the text changes rows, as SQLite cuts it. -/
def quiet (sql : Text) : Bool := (statements sql).all fun st => !startsWith writers st

/-- One job of `submit` and `resubmit`: its row, its data, and the row again. -/
def writeJob (q : Queue) (f : Files) : Code :=
  tmpStdin q f.stdin <| andThen (execute q true) <| andThen (copyFile q f.data) <|
    optional (execute q false)

/-- `jobs.each`. -/
def each (job : Files → Code) (jobs : List Files) : Code :=
  jobs.foldr (fun f a => andThen (job f) a) ret

/-- `JobQueue#submit`: the highest jid, then each job. -/
def submit (q : Queue) (jobs : List Files) : Code :=
  transaction q <| andThen (execute q false) <| each (writeJob q) jobs

/-- `JobQueue#list`. -/
def list (q : Queue) (whats : List Text) : Code := roTransaction q (execute q (!quiet (listSql whats)))

/-- `JobQueue#resubmit`. -/
def resubmitJobs (q : Queue) (jobs : List Files) : Code := transaction q (each (writeJob q) jobs)

/-- `ReSubmitter#resubmit`, which gives every job the files of the command line. -/
def resubmit (q : Queue) (whats : List Text) (f : Files) : Code :=
  transaction q (andThen (list q whats) (Many (resubmitJobs q [f])))

/-- `JobQueue#update`.  Its stdin is open around the transaction; the data are copied for each row of
    the last select. -/
def update (q : Queue) (f : Files) : Code :=
  tmpStdin q f.stdin <| transaction q <| andThen (optional (execute q false)) <|
    andThen (optional (execute q false)) <| andThen (optional (execute q true)) <|
      andThen (execute q false) (Many (copyFile q f.data))

/-- `JobQueue#delete`. -/
def deleteJobs (q : Queue) : Code := transaction q (andThen (execute q false) (execute q true))

/-- `Deleter#delete`. -/
def delete (q : Queue) : Code := andThen (deleteJobs q) (vacuum q)

/-- `update_job` of `Toucher#touch`, which reads and writes the stdin of the job itself. -/
def updateJob (q : Queue) (f : Files) : Code :=
  andThen (copyFile q f.stdin) (update q { stdin := f.stdin })

/-- `Toucher#touch`. -/
def touch (q : Queue) (jobs : List Files) : Code :=
  transaction q <| andThen (list q ["pending".toList]) <|
    each (fun f => either (updateJob q f) (submit q [f])) jobs

/-- `Rotater#rotate`, which copies the queue at `@qpath` whatever `@q` is. -/
def rotate (q : Queue) : Code :=
  transaction q (andThen (Many (rescued copyLive)) <| andThen copyLive <|
    andThen (deleteJobs .rotation) (deleteJobs q))

/-- `Feeder#fill_morgue`. -/
def fillMorgue (q : Queue) : Code :=
  feederTransaction q (andThen (execute q false) (Many (execute q true)))

/-- `Feeder#reap_zombie_ios`. -/
def reapZombieIos (q : Queue) : Code := rescued (feederTransaction q (execute q false))

/-- `Feeder#start_jobs`: `getjob` and `jobisrunning`. -/
def startJobs (q : Queue) : Code :=
  feederTransaction q (Many (andThen (execute q false) (optional (execute q true))))

/-- The transaction of `Feeder#reap_jobs`: `jobisdone` and `start_jobs`. -/
def reapJobs (q : Queue) : Code :=
  feederTransaction q (Many (andThen (execute q true) (optional (startJobs q))))

/-- `Feeder#feed`. -/
def feed (q : Queue) : Code :=
  andThen (feederTransaction q (andThen (fillMorgue q) (reapZombieIos q)))
    (Many (either (startJobs q) (reapJobs q)))

/-- `JobQueue#status`, for the texts it executes: those that are fixed, and those with stored values
    and exit codes in them. -/
def status (q : Queue) (texts : List Text) : Code :=
  roTransaction q (texts.foldr (fun sql a => andThen (execute q (!quiet sql)) a) ret)

/-- `JobQueue#query`. -/
def query (q : Queue) (whereClause : Option Text) : Code :=
  roTransaction q (execute q (!quiet (querySql whereClause)))

/-- The modes; those that take jobs with the files of these. -/
inductive Mode
  | submit (jobs : List Files)
  | resubmit (whats : List Text) (f : Files)
  | update (f : Files)
  | delete
  | touch (jobs : List Files)
  | rotate
  | feed
  | recover
  | list (whats : List Text)
  | status (texts : List Text)
  | query (whereClause : Option Text)

def Mode.code (q : Queue) : Mode → Code
  | .submit jobs => Locking.submit q jobs
  | .resubmit whats f => Locking.resubmit q whats f
  | .update f => Locking.update q f
  | .delete => Locking.delete q
  | .touch jobs => Locking.touch q jobs
  | .rotate => Locking.rotate q
  | .feed => Locking.feed q
  | .recover => Locking.recover q
  | .list whats => Locking.list q whats
  | .status texts => Locking.status q texts
  | .query w => Locking.query q w

/-! ## `JobQueue#snapshot` -/

/-- What comes out of the copies `snapshot` makes: whether the `i`-th passes its integrity check, the
    queue passes its own then, and `recover!` helps the copy. -/
structure Copies where
  retries : Nat
  passes : Nat → Bool
  livePasses : Nat → Bool
  recovers : Nat → Bool

/-- `take_snapshot`. -/
def takeSnapshot (c : Copies) (i : Nat) : Code :=
  andThen copyLive <| andThen (integrityCheck .snapshot) <|
    if c.passes i then ret
    else andThen (rescued (andThen (integrityCheck .live)
        (if c.livePasses i then ret else recover .live)))
      (recover .snapshot)

/-- The loop of `snapshot` and its last resort, and what is done with the snapshot.  After `recover!`
    there is no queue to do it with: the value of `take_snapshot` is that of the check. -/
def snapshot (c : Copies) (rest : Code) : Nat → Nat → Code
  | 0, i => andThen (writeLock .live (takeSnapshot c i)) (if c.passes i then rest else raise)
  | n + 1, i =>
    andThen (takeSnapshot c i) <|
      if c.passes i then rest else if c.recovers i then raise else snapshot c rest n (i + 1)

/-- `rq list` and `rq status` always set the option. -/
def Mode.snapshots : Mode → Bool
  | .list _ => true
  | .status _ => true
  | _ => false

/-- A command: its mode, and the copies that are made when it has the snapshot option. -/
structure Command where
  mode : Mode
  copies : Option Copies
  always : mode.snapshots = true → copies.isSome = true

/-- `set_q` and the mode. -/
def Command.code (cmd : Command) : Code :=
  match cmd.copies with
  | none => cmd.mode.code .live
  | some c => snapshot c (cmd.mode.code .snapshot) c.retries 0

/-! ## The discipline -/

/-- `list`, `status` and `query` read. -/
def Mode.reads : Mode → Bool
  | .list _ => true
  | .status _ => true
  | .query _ => true
  | _ => false

/-- A statement that can modify a db is executed under the exclusive lock of its queue, and one of a
    reading mode on the live queue under a lock.  The copy of `snapshot` is not a statement. -/
def Disciplined (m : Mode) (e : Event) : Prop :=
  (e.writes = true → e.held = some .exclusive) ∧
    (m.reads = true → e.queue = .live → e.held ≠ none)

instance (m : Mode) (e : Event) : Decidable (Disciplined m e) :=
  inferInstanceAs (Decidable (_ ∧ _))

/-- The texts of a reading mode do not change rows. -/
def Mode.quiet : Mode → Bool
  | .status texts => texts.all Locking.quiet
  | .query w => Locking.quiet (querySql w)
  | _ => true

/-- A file that is closed in the transaction of the mode is the lock file.  The stdin of an update is
    closed after it. -/
def Mode.closesLock : Mode → Bool
  | .submit jobs => jobs.any Files.hasLock
  | .resubmit _ f => f.hasLock
  | .update f => f.data
  | .touch jobs => jobs.any Files.hasLock
  | _ => false

/-- The commands that keep the discipline. -/
structure Command.Safe (cmd : Command) : Prop where
  notDelete : cmd.mode ≠ .delete
  notRecover : cmd.mode ≠ .recover
  notRotate : cmd.mode = .rotate → cmd.copies.isSome = true
  keepsLock : cmd.mode.closesLock = false
  quiet : cmd.mode.quiet = true
  passes : ∀ c, cmd.copies = some c → c.passes 0 = true

/-! ## The world inside a transaction -/

section Worlds

variable {w : World} {q q' : Queue} {f g : Handle → Handle}

@[simp] theorem handle_modify : (w.modify f q).handle q = f (w.handle q) := by
  cases q <;> rfl

theorem handle_modify_ne (h : q' ≠ q) : (w.modify f q).handle q' = w.handle q' := by
  cases q <;> cases q' <;> first | rfl | exact absurd rfl h

@[simp] theorem modify_modify : (w.modify f q).modify g q = w.modify (fun h => g (f h)) q := by
  cases q <;> rfl

theorem modify_eq_self (h : f (w.handle q) = w.handle q) : w.modify f q = w := by
  cases q <;> simp_all [World.modify, World.handle]

theorem modify_congr (h : f (w.handle q) = g (w.handle q)) : w.modify f q = w.modify g q := by
  cases q <;> simp_all [World.modify, World.handle]

@[simp] theorem calm_modify : (w.modify f q).calm = w.calm := by
  cases q <;> rfl

/-- Closing the lock file changes nothing when no lock is held. -/
theorem closed_of_free {isLock : Bool} (h : (w.handle q).held = none) : w.closed isLock q = w := by
  cases isLock with
  | false => rfl
  | true => exact @modify_eq_self w q ({ · with held := none }) (by rw [← h])

theorem closed_closed (b b' : Bool) : (w.closed b q).closed b' q = w.closed (b' || b) q := by
  cases b' with
  | false => rfl
  | true =>
    cases b with
    | false => rfl
    | true => exact closed_of_free (by simp [World.closed, World.hold])

end Worlds

/-! ## The rules of the layers -/

section Layers

variable {D : Event → Prop} {w : World} {q : Queue} {k : Kind} {a : Code}

theorem keeps_congr {b : Code} (h : a w = b w) (hb : Keeps (· = w) D b) : Keeps (· = w) D a := by
  rintro s o rfl ha
  exact hb s o rfl (h ▸ ha)

theorem keeps_execute {writes : Bool} (hcalm : w.calm = true)
    (hD : D ⟨q, writes, (w.handle q).held⟩) : Keeps (· = w) D (execute q writes) := by
  rintro s o rfl (⟨hstate, htrace, -⟩ | ⟨-, -, -, hwild⟩ | rfl)
  · refine ⟨hstate, ?_⟩
    intro e he
    rw [htrace, List.mem_singleton] at he
    rw [he]
    exact hD
  · rw [hcalm] at hwild
    cases hwild
  · exact ⟨rfl, fun e he => absurd he List.not_mem_nil⟩

/-- A file that is not the lock file, or is closed when no lock is held. -/
theorem keeps_copyFile {isLock : Bool} (h : w.closed isLock q = w) :
    Keeps (· = w) D (copyFile q isLock) := by
  rintro s o rfl ⟨htrace, hstate⟩
  refine ⟨?_, fun e he => absurd he (by rw [htrace]; exact List.not_mem_nil)⟩
  rcases hstate with hstate | ⟨hstate, -⟩
  · exact hstate.trans h
  · exact hstate

theorem keeps_tmpStdin {isLock : Bool} (h : w.closed isLock q = w) (ha : Keeps (· = w) D a) :
    Keeps (· = w) D (tmpStdin q isLock a) := by
  refine keeps_either keeps_raise (keeps_bracket ?_ ?_ ha)
  · rintro s rfl
    rfl
  · rintro s rfl
    exact h

theorem keeps_integrityCheck (hD : D ⟨q, false, (w.handle q).held⟩) :
    Keeps (· = w) D (integrityCheck q) := by
  rintro s o rfl ⟨hstate, htrace | ⟨htrace, -⟩⟩
  · refine ⟨hstate, ?_⟩
    intro e he
    rw [htrace, List.mem_singleton] at he
    rw [he]
    exact hD
  · refine ⟨hstate, ?_⟩
    intro e he
    rw [htrace] at he
    exact absurd he List.not_mem_nil

/-- The lock is held inside, and given back. -/
theorem keeps_aquireLock (hheld : (w.handle q).held = none)
    (ha : Keeps (· = w.hold (some k) q) D a) : Keeps (· = w) D (aquireLock k q a) := by
  refine keeps_either keeps_raise (keeps_bracket ?_ ?_ ha)
  · rintro s rfl
    rfl
  · rintro s rfl
    unfold World.hold
    rw [modify_modify]
    exact modify_eq_self (by rw [← hheld])

/-- The world in the block of `QDB#transaction`. -/
theorem keeps_qdbTransaction (hflag : (w.handle q).qdbInTransaction = false)
    (hheld : (w.handle q).held = none)
    (ha : Keeps (· = w.modify ({ · with qdbInTransaction := true, held := some k }) q) D (block q a k)) :
    Keeps (· = w) D (qdbTransaction k q a) := by
  refine keeps_congr (b := bracket (fun w => w.flag true q) (fun w => w.flag false q)
    (Retried (aquireLock k q (block q a k)))) (if_neg (by rw [hflag]; simp)) ?_
  refine @keeps_bracket _ _ _ (· = w.flag true q) D _ _ _ ?_ ?_ (keeps_retried (keeps_aquireLock ?_ ?_))
  · rintro s rfl
    rfl
  · rintro s rfl
    unfold World.flag
    rw [modify_modify]
    exact modify_eq_self (by rw [← hflag])
  · unfold World.flag
    rw [handle_modify, ← hheld]
  · unfold World.hold World.flag
    rw [modify_modify]
    exact ha

/-- A queue nothing is done with. -/
def idle : Handle := {}

/-- A queue in a transaction, and in a read only one. -/
def writing : Handle := ⟨true, false, true, some .exclusive⟩

def reading : Handle := ⟨false, true, true, some .shared⟩

/-- From outside, the two begin a transaction of `QDB`. -/
theorem transaction_eq (hq : w.handle q = idle) : transaction q a w =
    bracket (fun w => w.modify ({ · with inTransaction := true }) q)
      (fun w => w.modify ({ · with inTransaction := false }) q) (qdbTransaction .exclusive q a) w := by
  unfold transaction
  rw [hq]
  rfl

theorem roTransaction_eq (hq : w.handle q = idle) : roTransaction q a w =
    bracket (fun w => w.modify ({ · with inRoTransaction := true }) q)
      (fun w => w.modify ({ · with inRoTransaction := false }) q) (qdbTransaction .shared q a) w := by
  unfold roTransaction
  rw [hq]
  rfl

/-- The world in their blocks. -/
theorem modify_writing (hq : w.handle q = idle) :
    (w.modify (fun h => { h with inTransaction := true }) q).modify
      (fun h => { h with qdbInTransaction := true, held := some .exclusive }) q
      = w.modify (fun _ => writing) q := by
  rw [modify_modify]
  exact modify_congr (by rw [hq]; rfl)

theorem modify_reading (hq : w.handle q = idle) :
    (w.modify (fun h => { h with inRoTransaction := true }) q).modify
      (fun h => { h with qdbInTransaction := true, held := some .shared }) q
      = w.modify (fun _ => reading) q := by
  rw [modify_modify]
  exact modify_congr (by rw [hq]; rfl)

/-- **The rule of `JobQueue#transaction`**: the block, `begin` and `commit` run under the exclusive
    lock. -/
theorem keeps_transaction (hq : w.handle q = idle) (hcalm : w.calm = true)
    (hbegin : D ⟨q, false, some .exclusive⟩) (hcommit : D ⟨q, true, some .exclusive⟩)
    (ha : Keeps (· = w.modify (fun _ => writing) q) D a) : Keeps (· = w) D (transaction q a) := by
  refine keeps_congr (transaction_eq hq) ?_
  refine @keeps_bracket _ _ _ (· = w.modify ({ · with inTransaction := true }) q) D _ _ _ ?_ ?_
    (keeps_qdbTransaction ?_ ?_ ?_)
  · rintro s rfl
    rfl
  · rintro s rfl
    rw [modify_modify]
    exact modify_eq_self (by rw [hq]; rfl)
  · rw [handle_modify, hq]
    rfl
  · rw [handle_modify, hq]
    rfl
  · rw [modify_writing hq]
    have hexec : ∀ {b}, D ⟨q, b, some .exclusive⟩ →
        Keeps (· = w.modify (fun _ => writing) q) D (execute q b) := by
      intro b hb
      refine keeps_execute (by rw [calm_modify, hcalm]) ?_
      rw [handle_modify]
      exact hb
    exact keeps_andThen (hexec hbegin) (keeps_andThen ha (hexec hcommit))

/-- **The rule of `JobQueue#ro_transaction`**: the block runs under a shared lock. -/
theorem keeps_roTransaction (hq : w.handle q = idle)
    (ha : Keeps (· = w.modify (fun _ => reading) q) D a) : Keeps (· = w) D (roTransaction q a) := by
  refine keeps_congr (roTransaction_eq hq) ?_
  refine @keeps_bracket _ _ _ (· = w.modify ({ · with inRoTransaction := true }) q) D _ _ _ ?_ ?_
    (keeps_qdbTransaction ?_ ?_ ?_)
  · rintro s rfl
    rfl
  · rintro s rfl
    rw [modify_modify]
    exact modify_eq_self (by rw [hq]; rfl)
  · rw [handle_modify, hq]
    rfl
  · rw [handle_modify, hq]
    rfl
  · rw [modify_reading hq]
    exact ha

/-- Inside a transaction the two add nothing. -/
theorem keeps_nested (hq : w.handle q = writing) (ha : Keeps (· = w) D a) :
    Keeps (· = w) D (transaction q a) := by
  refine keeps_congr (b := a) ?_ ha
  show (if _ then _ else if _ then _ else _) = _
  rw [hq]
  rfl

theorem keeps_roNested (hq : w.handle q = writing) (ha : Keeps (· = w) D a) :
    Keeps (· = w) D (roTransaction q a) := by
  refine keeps_congr (b := a) ?_ ha
  show (if _ then _ else _) = _
  rw [hq]
  rfl

/-- **The rule of `Feeder#transaction`**. -/
theorem keeps_feederTransaction (hw : w.feeding = false)
    (ha : Keeps (· = { w with feeding := true }) D (transaction q a)) :
    Keeps (· = w) D (feederTransaction q a) := by
  refine keeps_congr (b := bracket (fun w => { w with feeding := true })
    (fun w => { w with feeding := false }) (transaction q a)) (if_neg (by rw [hw]; simp)) ?_
  refine keeps_bracket ?_ ?_ ha
  · rintro s rfl
    rfl
  · rintro s rfl
    rw [← hw]

theorem keeps_feederNested (hw : w.feeding = true) (ha : Keeps (· = w) D a) :
    Keeps (· = w) D (feederTransaction q a) :=
  keeps_congr (if_pos hw) ha

end Layers

/-! ## Code inside and outside of a transaction -/

/-- The code keeps the discipline in a transaction on `q`. -/
def Inside (m : Mode) (q : Queue) (a : Code) : Prop :=
  ∀ w : World, w.handle q = writing → w.calm = true → Keeps (· = w) (Disciplined m) a

/-- The code keeps the discipline when nothing is being done with `q`. -/
def Outside (m : Mode) (q : Queue) (a : Code) : Prop :=
  ∀ w : World, w.handle q = idle → w.calm = true → w.feeding = false →
    Keeps (· = w) (Disciplined m) a

section Modes

variable {m : Mode} {q : Queue} {a b : Code}

theorem disciplined_exclusive (writes : Bool) : Disciplined m ⟨q, writes, some .exclusive⟩ :=
  ⟨fun _ => rfl, fun _ _ => by simp⟩

theorem disciplined_shared : Disciplined m ⟨q, false, some .shared⟩ :=
  ⟨fun h => absurd h Bool.false_ne_true, fun _ _ => by simp⟩

theorem inside_execute (writes : Bool) : Inside m q (execute q writes) := by
  intro w hw hcalm
  refine keeps_execute hcalm ?_
  rw [hw]
  exact disciplined_exclusive writes

theorem inside_ret : Inside m q ret := fun _ _ _ => keeps_ret

theorem inside_andThen (ha : Inside m q a) (hb : Inside m q b) : Inside m q (andThen a b) :=
  fun w hw hcalm => keeps_andThen (ha w hw hcalm) (hb w hw hcalm)

theorem inside_either (ha : Inside m q a) (hb : Inside m q b) : Inside m q (either a b) :=
  fun w hw hcalm => keeps_either (ha w hw hcalm) (hb w hw hcalm)

theorem inside_optional (ha : Inside m q a) : Inside m q (optional a) := inside_either inside_ret ha

theorem inside_many (ha : Inside m q a) : Inside m q (Many a) :=
  fun w hw hcalm => keeps_many (ha w hw hcalm)

theorem inside_rescued (ha : Inside m q a) : Inside m q (rescued a) :=
  fun w hw hcalm => keeps_rescued (ha w hw hcalm)

theorem inside_copyFile : Inside m q (copyFile q false) := fun _ _ _ => keeps_copyFile rfl

theorem inside_tmpStdin (ha : Inside m q a) : Inside m q (tmpStdin q false a) :=
  fun w hw hcalm => keeps_tmpStdin rfl (ha w hw hcalm)

/-- Induction on the jobs. -/
theorem inside_each {job : Files → Code} : ∀ {jobs : List Files}, (∀ f ∈ jobs, Inside m q (job f)) →
    Inside m q (each job jobs)
  | [], _ => inside_ret
  | f :: _, h => inside_andThen (h f List.mem_cons_self)
      (inside_each fun f hf => h f (List.mem_cons_of_mem _ hf))

theorem inside_transaction (ha : Inside m q a) : Inside m q (transaction q a) :=
  fun w hw hcalm => keeps_nested hw (ha w hw hcalm)

theorem inside_roTransaction (ha : Inside m q a) : Inside m q (roTransaction q a) :=
  fun w hw hcalm => keeps_roNested hw (ha w hw hcalm)

theorem inside_feederTransaction (ha : Inside m q a) : Inside m q (feederTransaction q a) := by
  intro w hw hcalm
  by_cases hf : w.feeding = true
  · exact keeps_feederNested hf (ha w hw hcalm)
  · refine keeps_feederTransaction (by simpa using hf) (keeps_nested ?_ (ha _ ?_ hcalm))
    all_goals
      rw [← hw]
      cases q <;> rfl

theorem outside_transaction (ha : Inside m q a) : Outside m q (transaction q a) := by
  intro w hw hcalm _
  refine keeps_transaction hw hcalm (disciplined_exclusive _) (disciplined_exclusive _) (ha _ ?_ ?_)
  · rw [handle_modify]
  · rw [calm_modify, hcalm]

theorem outside_feederTransaction (ha : Inside m q a) : Outside m q (feederTransaction q a) := by
  intro w hw hcalm hf
  refine keeps_feederTransaction hf (keeps_transaction ?_ hcalm (disciplined_exclusive _)
    (disciplined_exclusive _) (ha _ ?_ ?_))
  · rw [← hw]
    cases q <;> rfl
  · rw [handle_modify]
  · rw [calm_modify, hcalm]

/-- Outside of a transaction there is no lock to lose. -/
theorem outside_tmpStdin {isLock : Bool} (ha : Outside m q a) : Outside m q (tmpStdin q isLock a) :=
  fun w hw hcalm hf => keeps_tmpStdin (closed_of_free (by rw [hw]; rfl)) (ha w hw hcalm hf)

theorem outside_andThen (ha : Outside m q a) (hb : Outside m q b) : Outside m q (andThen a b) :=
  fun w hw hcalm hf => keeps_andThen (ha w hw hcalm hf) (hb w hw hcalm hf)

theorem outside_either (ha : Outside m q a) (hb : Outside m q b) : Outside m q (either a b) :=
  fun w hw hcalm hf => keeps_either (ha w hw hcalm hf) (hb w hw hcalm hf)

theorem outside_many (ha : Outside m q a) : Outside m q (Many a) :=
  fun w hw hcalm hf => keeps_many (ha w hw hcalm hf)

/-! ## The modes that keep it -/

theorem inside_list (whats : List Text) : Inside m q (list q whats) :=
  inside_roTransaction (inside_execute _)

/-- A job without the lock file is written, and perhaps read back. -/
theorem inside_writeJob {f : Files} (hf : f.hasLock = false) : Inside m q (writeJob q f) := by
  obtain ⟨hstdin, hdata⟩ := Bool.or_eq_false_iff.mp hf
  unfold writeJob
  rw [hstdin, hdata]
  exact inside_tmpStdin (inside_andThen (inside_execute _)
    (inside_andThen inside_copyFile (inside_optional (inside_execute _))))

theorem inside_writeJobs {jobs : List Files} (hjobs : jobs.any Files.hasLock = false) :
    Inside m q (each (writeJob q) jobs) :=
  inside_each fun f hf => inside_writeJob (by simpa using List.any_eq_false.mp hjobs f hf)

theorem inside_submitBlock {jobs : List Files} (hjobs : jobs.any Files.hasLock = false) :
    Inside m q (andThen (execute q false) (each (writeJob q) jobs)) :=
  inside_andThen (inside_execute _) (inside_writeJobs hjobs)

theorem outside_resubmit (whats : List Text) {f : Files} (hf : f.hasLock = false) :
    Outside m q (resubmit q whats f) :=
  outside_transaction (inside_andThen (inside_list whats)
    (inside_many (inside_transaction (inside_writeJobs (by simp [hf])))))

theorem inside_updateBlock :
    Inside m q (andThen (optional (execute q false)) <| andThen (optional (execute q false)) <|
      andThen (optional (execute q true)) <| andThen (execute q false) (Many (copyFile q false))) :=
  inside_andThen (inside_optional (inside_execute _)) <|
    inside_andThen (inside_optional (inside_execute _)) <|
      inside_andThen (inside_optional (inside_execute _)) <|
        inside_andThen (inside_execute _) (inside_many inside_copyFile)

theorem outside_update {f : Files} (hf : f.data = false) : Outside m q (update q f) := by
  unfold update
  rw [hf]
  exact outside_tmpStdin (outside_transaction inside_updateBlock)

/-- A job of `touch` without the lock file, updated or submitted. -/
theorem inside_touchJob {f : Files} (hf : f.hasLock = false) :
    Inside m q (either (updateJob q f) (submit q [f])) := by
  refine inside_either ?_ (inside_transaction (inside_submitBlock (by simp [hf])))
  unfold updateJob
  rw [(Bool.or_eq_false_iff.mp hf).1]
  exact inside_andThen inside_copyFile (inside_tmpStdin (inside_transaction inside_updateBlock))

theorem outside_touch {jobs : List Files} (hjobs : jobs.any Files.hasLock = false) :
    Outside m q (touch q jobs) :=
  outside_transaction (inside_andThen (inside_list _)
    (inside_each fun f hf => inside_touchJob (by simpa using List.any_eq_false.mp hjobs f hf)))

theorem inside_deleteJobs : Inside m q (deleteJobs q) :=
  inside_transaction (inside_andThen (inside_execute _) (inside_execute _))

theorem inside_startJobs : Inside m q (startJobs q) :=
  inside_feederTransaction (inside_many (inside_andThen (inside_execute _)
    (inside_optional (inside_execute _))))

theorem outside_feed : Outside m q (feed q) := by
  refine outside_andThen (outside_feederTransaction (inside_andThen ?_ ?_))
    (outside_many (outside_either ?_ ?_))
  · exact inside_feederTransaction (inside_andThen (inside_execute _) (inside_many (inside_execute _)))
  · exact inside_rescued (inside_feederTransaction (inside_execute _))
  · exact outside_feederTransaction (inside_many (inside_andThen (inside_execute _)
      (inside_optional (inside_execute _))))
  · exact outside_feederTransaction (inside_many (inside_andThen (inside_execute _)
      (inside_optional inside_startJobs)))

/-- `rotate` from a snapshot. -/
theorem keeps_rotate {w : World} (hsnap : w.handle .snapshot = idle) (hlive : w.handle .live = idle)
    (hrot : w.handle .rotation = idle) (hcalm : w.calm = true) :
    Keeps (· = w) (Disciplined m) (rotate .snapshot) := by
  have hlive' : (w.modify (fun _ => writing) .snapshot).handle .live = idle := by
    rw [handle_modify_ne (by simp), hlive]
  have hrot' : (w.modify (fun _ => writing) .snapshot).handle .rotation = idle := by
    rw [handle_modify_ne (by simp), hrot]
  refine keeps_transaction hsnap hcalm (disciplined_exclusive _) (disciplined_exclusive _) ?_
  have hcopy : Keeps (· = w.modify (fun _ => writing) .snapshot) (Disciplined m) copyLive :=
    keeps_copyFile (closed_of_free (by rw [hlive']; rfl))
  refine keeps_andThen (keeps_many (keeps_rescued hcopy)) <| keeps_andThen hcopy <|
    keeps_andThen ?_ ?_
  · refine keeps_transaction hrot' (by rw [calm_modify, hcalm]) (disciplined_exclusive _)
      (disciplined_exclusive _) ?_
    exact inside_andThen (inside_execute _) (inside_execute _) _ handle_modify
      (by rw [calm_modify, calm_modify, hcalm])
  · exact inside_deleteJobs _ handle_modify (by rw [calm_modify, hcalm])

/-! ## The modes that read -/

theorem quiet_iff {sql : Text} : quiet sql = true ↔ Quiet sql := by
  simp [quiet, Quiet, Writes, List.all_eq_true]

theorem quiet_listSql (whats : List Text) : quiet (listSql whats) = true :=
  quiet_iff.mpr (plain_of_oneSelect (listSql_oneSelect whats)).quiet

theorem keeps_read {w : World} (hw : w.handle q = reading) (hcalm : w.calm = true) {sql : Text}
    (hsql : quiet sql = true) : Keeps (· = w) (Disciplined m) (execute q (!quiet sql)) := by
  refine keeps_execute hcalm ?_
  rw [hw, hsql]
  exact disciplined_shared

theorem keeps_reads {w : World} (hw : w.handle q = reading) (hcalm : w.calm = true) :
    ∀ {texts : List Text}, texts.all quiet = true → Keeps (· = w) (Disciplined m)
      (texts.foldr (fun sql a => andThen (execute q (!quiet sql)) a) ret)
  | [], _ => keeps_ret
  | sql :: texts, h => by
    rw [List.all_cons, Bool.and_eq_true] at h
    exact keeps_andThen (keeps_read hw hcalm h.1) (keeps_reads hw hcalm h.2)

theorem outside_roTransaction
    (ha : ∀ w : World, w.handle q = reading → w.calm = true → Keeps (· = w) (Disciplined m) a) :
    Outside m q (roTransaction q a) := by
  intro w hw hcalm _
  exact keeps_roTransaction hw (ha _ handle_modify (by rw [calm_modify, hcalm]))

/-- **Every mode but `delete`, `recover` and `rotate` keeps the discipline on its queue**, unless it
    closes the lock file itself. -/
theorem outside_mode {m' : Mode} (hdelete : m ≠ .delete) (hrecover : m ≠ .recover)
    (hrotate : m ≠ .rotate) (hfiles : m.closesLock = false)
    (hquiet : m.quiet = true) : Outside m' q (m.code q) := by
  cases m with
  | submit jobs => exact outside_transaction (inside_submitBlock hfiles)
  | resubmit whats f => exact outside_resubmit whats hfiles
  | update f => exact outside_update hfiles
  | delete => exact absurd rfl hdelete
  | touch jobs => exact outside_touch hfiles
  | rotate => exact absurd rfl hrotate
  | feed => exact outside_feed
  | recover => exact absurd rfl hrecover
  | list whats => exact outside_roTransaction fun w hw hcalm => keeps_read hw hcalm (quiet_listSql whats)
  | status texts => exact outside_roTransaction fun w hw hcalm => keeps_reads hw hcalm hquiet
  | query w => exact outside_roTransaction fun w hw hcalm => keeps_read hw hcalm hquiet

end Modes

/-! ## The snapshot -/

/-- A process as it starts. -/
def start : World := {}

/-- The process with the last resort's lock, or with that lock given up by the copy. -/
def Resort (w : World) : Prop := w = start.hold (some .exclusive) .live ∨ w = start

/-- A copy that passes its check, where giving up the lock of the queue does no harm. -/
theorem keeps_takeSnapshot {I : World → Prop} {m : Mode} {c : Copies} {i : Nat}
    (hI : ∀ w, I w → I (w.hold none .live)) (hpass : c.passes i = true) :
    Keeps I (Disciplined m) (takeSnapshot c i) := by
  have hcopy : Keeps I (Disciplined m) copyLive := by
    rintro w o hw ⟨htrace, hstate⟩
    refine ⟨?_, fun e he => absurd he (by rw [htrace]; exact List.not_mem_nil)⟩
    rcases hstate with h | ⟨h, -⟩
    · rw [h]
      exact hI w hw
    · rw [h]
      exact hw
  have hcheck : Keeps I (Disciplined m) (integrityCheck .snapshot) := by
    rintro w o hw h
    have hD : Disciplined m ⟨.snapshot, false, (w.handle .snapshot).held⟩ :=
      ⟨fun h => absurd h Bool.false_ne_true, fun _ h => by cases h⟩
    obtain ⟨hstate, htrace⟩ := keeps_integrityCheck hD w o rfl h
    exact ⟨hstate ▸ hw, htrace⟩
  unfold takeSnapshot
  rw [if_pos hpass]
  exact keeps_andThen hcopy (keeps_andThen hcheck keeps_ret)

theorem keeps_snapshot {m : Mode} {c : Copies} {rest : Code} {n i : Nat} (hpass : c.passes i = true)
    (hrest : Keeps (· = start) (Disciplined m) rest) :
    Keeps (· = start) (Disciplined m) (snapshot c rest n i) := by
  cases n with
  | zero =>
    unfold snapshot
    rw [if_pos hpass]
    refine keeps_andThen (keeps_retried (keeps_either keeps_raise ?_)) hrest
    refine @keeps_bracket _ _ _ Resort _ _ _ _ ?_ ?_ (keeps_takeSnapshot ?_ hpass)
    · rintro w rfl
      exact .inl rfl
    · rintro w (rfl | rfl) <;> rfl
    · rintro w (rfl | rfl)
      · exact .inr rfl
      · exact .inr rfl
  | succ n =>
    unfold snapshot
    rw [if_pos hpass]
    refine keeps_andThen (keeps_takeSnapshot ?_ hpass) hrest
    rintro w rfl
    rfl

/-! ## Runs that break the discipline -/

section Breaks

variable {w w' : World} {q : Queue} {a b : Code} {tr : List Event} {writes r : Bool}

theorem execute_run (h : (w.handle q).qdbInTransaction = true) :
    execute q writes w ⟨[⟨q, writes, (w.handle q).held⟩], w, r⟩ :=
  .inl ⟨rfl, rfl, h⟩

theorem aquireLock_run {k : Kind} (ha : a (w.hold (some k) q) ⟨tr, w', r⟩) :
    aquireLock k q a w ⟨tr, w'.hold none q, r⟩ :=
  .inr (bracket_run ha)

/-- A program that has a run with a statement of this kind in it. -/
def Executes (a : Code) (w : World) (e : Event) : Prop := ∃ o, a w o ∧ e ∈ o.trace

/-- `vacuum` executes its statement under no lock. -/
theorem vacuum_run (hw : w.handle q = idle) : vacuum q w ⟨[⟨q, true, none⟩], w, r⟩ := by
  have hflag : (w.flag true q).handle q = { idle with qdbInTransaction := true } := by
    unfold World.flag
    rw [handle_modify, hw]
  have hback : (w.flag true q).flag false q = w := by
    unfold World.flag
    rw [modify_modify]
    exact modify_eq_self (by rw [hw]; rfl)
  have h := @bracket_run _ _ (execute q true) w (w.flag true q) [⟨q, true, none⟩] r
    (fun w : World => w.flag true q) (fun w : World => w.flag false q) ?_
  · unfold vacuum
    rw [hw, if_neg (by decide)]
    rw [hback] at h
    exact h
  · have hexec := @execute_run (w.flag true q) q true r (by rw [hflag])
    rw [hflag] at hexec
    exact hexec

theorem qdbTransaction_run {k : Kind} (hflag : (w.handle q).qdbInTransaction = false)
    (hb : block q a k (w.modify ({ · with qdbInTransaction := true, held := some k }) q) ⟨tr, w', r⟩) :
    qdbTransaction k q a w ⟨tr, (w'.hold none q).flag false q, r⟩ := by
  have hin : (w.flag true q).hold (some k) q
      = w.modify ({ · with qdbInTransaction := true, held := some k }) q := by
    unfold World.hold World.flag
    rw [modify_modify]
  have h : aquireLock k q (block q a k) (w.flag true q) ⟨tr, w'.hold none q, r⟩ :=
    aquireLock_run (by rw [hin]; exact hb)
  unfold qdbTransaction
  rw [if_neg (by rw [hflag]; simp)]
  exact @bracket_run _ _ _ _ _ _ _ (fun w : World => w.flag true q)
    (fun w : World => w.flag false q) (Retried.last h)

/-- A transaction whose first attempt ends as its block does. -/
theorem transaction_run (hw : w.handle q = idle)
    (hb : block q a .exclusive (w.modify (fun _ => writing) q) ⟨tr, w', r⟩) :
    transaction q a w ⟨tr, w'.modify (fun h =>
      { h with held := none, qdbInTransaction := false, inTransaction := false }) q, r⟩ := by
  have h : qdbTransaction .exclusive q a (w.modify (fun h => { h with inTransaction := true }) q)
      ⟨tr, (w'.hold none q).flag false q, r⟩ :=
    qdbTransaction_run (by rw [handle_modify, hw]; rfl) (by rw [modify_writing hw]; exact hb)
  have hleave := @bracket_run _ _ _ _ _ _ _ (fun w : World => w.modify ({ · with inTransaction := true }) q)
    (fun w : World => w.modify ({ · with inTransaction := false }) q) h
  unfold World.hold World.flag at hleave
  rw [modify_modify, modify_modify] at hleave
  rw [transaction_eq hw]
  exact hleave

theorem roTransaction_run (hw : w.handle q = idle)
    (hb : a (w.modify (fun _ => reading) q) ⟨tr, w', r⟩) :
    ∃ w'', roTransaction q a w ⟨tr, w'', r⟩ := by
  have h : qdbTransaction .shared q a (w.modify (fun h => { h with inRoTransaction := true }) q)
      ⟨tr, (w'.hold none q).flag false q, r⟩ :=
    qdbTransaction_run (by rw [handle_modify, hw]; rfl) (by rw [modify_reading hw]; exact hb)
  have hleave := @bracket_run _ _ _ _ _ _ _ (fun w : World => w.modify ({ · with inRoTransaction := true }) q)
    (fun w : World => w.modify ({ · with inRoTransaction := false }) q) h
  rw [roTransaction_eq hw]
  exact ⟨_, hleave⟩

/-- `JobQueue#delete` at its best. -/
theorem deleteJobs_run (hw : w.handle q = idle) : ∃ tr, deleteJobs q w ⟨tr, w, true⟩ := by
  have hflag : ((w.modify (fun _ => writing) q).handle q).qdbInTransaction = true := by
    rw [handle_modify]
    rfl
  have hb := andThen_run (@execute_run _ q false true hflag)
    (andThen_run (andThen_run (@execute_run _ q false true hflag) (@execute_run _ q true true hflag))
      (@execute_run _ q true true hflag))
  have hback : (w.modify (fun _ => writing) q).modify (fun h =>
      { h with held := none, qdbInTransaction := false, inTransaction := false }) q = w := by
    rw [modify_modify]
    exact modify_eq_self (by rw [hw]; rfl)
  have h := transaction_run hw (show block q _ .exclusive _ _ from hb)
  rw [hback] at h
  exact ⟨_, h⟩

theorem delete_breaks (hw : w.handle q = idle) : Executes (delete q) w ⟨q, true, none⟩ := by
  obtain ⟨tr, h⟩ := deleteJobs_run hw
  exact ⟨_, andThen_run h (@vacuum_run w q true hw), by simp⟩

theorem recover_raises (hw : w.handle q = idle) : recover q w ⟨[⟨q, true, none⟩], w, false⟩ :=
  andThen_raised (vacuum_run hw)

/-- `rotate` deletes in the queue after its copy has given up the lock. -/
theorem rotate_breaks : Executes (rotate .live) start ⟨.live, true, none⟩ := by
  have hcopy : copyLive (start.modify (fun _ => writing) .live)
      ⟨[], (start.modify (fun _ => writing) .live).hold none .live, true⟩ := ⟨rfl, .inl rfl⟩
  obtain ⟨tr, hrot⟩ := @deleteJobs_run ((start.modify (fun _ => writing) .live).hold none .live)
    .rotation rfl
  have hexec : andThen (execute .live false) (execute .live true)
      ((start.modify (fun _ => writing) .live).hold none .live)
      ⟨[⟨.live, false, none⟩] ++ [⟨.live, true, none⟩],
        (start.modify (fun _ => writing) .live).hold none .live, false⟩ :=
    andThen_run (execute_run rfl) (execute_run rfl)
  have hnested : deleteJobs .live ((start.modify (fun _ => writing) .live).hold none .live)
      ⟨[⟨.live, false, none⟩] ++ [⟨.live, true, none⟩],
        (start.modify (fun _ => writing) .live).hold none .live, false⟩ := hexec
  have hbody := andThen_run (Many.stop (a := rescued copyLive) (start.modify (fun _ => writing) .live))
    (andThen_run hcopy (andThen_run hrot hnested))
  have hblock : block .live _ .exclusive (start.modify (fun _ => writing) .live) _ :=
    andThen_run (@execute_run _ .live false true rfl) (andThen_raised hbody)
  exact ⟨_, transaction_run rfl hblock, by simp⟩

/-- Inside of a transaction, `transaction` is its block. -/
theorem transaction_nested {k : Option Kind} (hw : w.handle q = { writing with held := k })
    {o : Outcome World Event} : transaction q a w o ↔ a w o := by
  unfold transaction
  rw [hw]
  rfl

theorem roTransaction_nested {k : Option Kind} (hw : w.handle q = { writing with held := k })
    {o : Outcome World Event} : roTransaction q a w o ↔ a w o := by
  unfold roTransaction
  rw [hw]
  rfl

theorem optional_run : optional a w ⟨[], w, true⟩ := .inl rfl

theorem copyFile_run {isLock : Bool} : copyFile q isLock w ⟨[], w.closed isLock q, true⟩ :=
  ⟨rfl, .inl rfl⟩

theorem tmpStdin_run {isLock : Bool} (ha : a w ⟨tr, w', r⟩) :
    tmpStdin q isLock a w ⟨tr, w'.closed isLock q, r⟩ :=
  .inr (@bracket_run _ _ a w w' tr r (fun w => w) (fun w => w.closed isLock q) ha)

theorem handle_closed {k : Option Kind} (hw : w.handle q = { writing with held := k }) (b : Bool) :
    (w.closed b q).handle q = { writing with held := bif b then none else k } := by
  cases b with
  | false => exact hw
  | true =>
    show (w.modify ({ · with held := none }) q).handle q = _
    rw [handle_modify, hw]
    rfl

/-- A job with the lock file among its files leaves the rest of the transaction without the lock. -/
theorem writeJob_run {k : Option Kind} (hw : w.handle q = { writing with held := k }) (f : Files) :
    ∃ tr, writeJob q f w ⟨tr, w.closed f.hasLock q, true⟩ := by
  have hinsert := @execute_run w q true true (by rw [hw]; rfl)
  have h : writeJob q f w ⟨_, (w.closed f.data q).closed f.stdin q, true⟩ :=
    tmpStdin_run (andThen_run hinsert (andThen_run copyFile_run optional_run))
  rw [closed_closed] at h
  exact ⟨_, h⟩

/-- Induction on the jobs. -/
theorem each_run {job : Files → Code}
    (hjob : ∀ {w : World} {k : Option Kind}, w.handle q = { writing with held := k } → ∀ f,
      ∃ tr, job f w ⟨tr, w.closed f.hasLock q, true⟩) :
    ∀ (jobs : List Files) {w : World} {k : Option Kind}, w.handle q = { writing with held := k } →
      ∃ tr, each job jobs w ⟨tr, w.closed (jobs.any Files.hasLock) q, true⟩
  | [], _, _, _ => ⟨_, rfl⟩
  | f :: jobs, w, k, hw => by
    obtain ⟨tr, h⟩ := hjob hw f
    obtain ⟨tr', h'⟩ := each_run hjob jobs (handle_closed hw f.hasLock)
    rw [closed_closed, Bool.or_comm] at h'
    exact ⟨_, andThen_run h h'⟩

/-- What closes the lock file in its transaction executes `commit` without the lock. -/
theorem transaction_breaks (hw : w.handle q = idle)
    (ha : ∃ tr, a (w.modify (fun _ => writing) q)
      ⟨tr, (w.modify (fun _ => writing) q).closed true q, true⟩) :
    Executes (transaction q a) w ⟨q, true, none⟩ := by
  obtain ⟨tr, ha⟩ := ha
  have hin : (w.modify (fun _ => writing) q).handle q = { writing with held := some .exclusive } :=
    handle_modify
  have hbegin := @execute_run (w.modify (fun _ => writing) q) q false true (by rw [hin]; rfl)
  have hcommit := @execute_run ((w.modify (fun _ => writing) q).closed true q) q true true
    (by rw [handle_closed hin]; rfl)
  rw [handle_closed hin] at hcommit
  have hblock : block q a .exclusive (w.modify (fun _ => writing) q) _ :=
    andThen_run hbegin (andThen_run ha hcommit)
  exact ⟨_, transaction_run hw hblock, by simp⟩

theorem submitBlock_run {k : Option Kind} (hw : w.handle q = { writing with held := k })
    (jobs : List Files) : ∃ tr, andThen (execute q false) (each (writeJob q) jobs) w
      ⟨tr, w.closed (jobs.any Files.hasLock) q, true⟩ := by
  obtain ⟨tr, h⟩ := each_run (fun hw f => writeJob_run hw f) jobs hw
  exact ⟨_, andThen_run (@execute_run w q false true (by rw [hw]; rfl)) h⟩

theorem submit_breaks (hw : w.handle q = idle) {jobs : List Files}
    (hjobs : jobs.any Files.hasLock = true) : Executes (submit q jobs) w ⟨q, true, none⟩ := by
  refine transaction_breaks hw ?_
  have h := @submitBlock_run (w.modify (fun _ => writing) q) q (some .exclusive) handle_modify jobs
  rw [hjobs] at h
  exact h

theorem list_run {k : Option Kind} (hw : w.handle q = { writing with held := k }) (whats : List Text) :
    ∃ tr, list q whats w ⟨tr, w, true⟩ :=
  ⟨_, (roTransaction_nested hw).mpr (@execute_run w q _ true (by rw [hw]; rfl))⟩

theorem resubmit_breaks (hw : w.handle q = idle) {whats : List Text} {f : Files}
    (hf : f.hasLock = true) : Executes (resubmit q whats f) w ⟨q, true, none⟩ := by
  refine transaction_breaks hw ?_
  have hin : (w.modify (fun _ => writing) q).handle q = { writing with held := some .exclusive } :=
    handle_modify
  obtain ⟨tr, hlist⟩ := list_run hin whats
  obtain ⟨tr', hjob⟩ := each_run (fun hw f => writeJob_run hw f) [f] hin
  rw [List.any_cons, hf] at hjob
  exact ⟨_, andThen_run hlist (.next ((transaction_nested hin).mpr hjob) rfl (.stop _))⟩

theorem update_breaks (hw : w.handle q = idle) {f : Files} (hf : f.data = true) :
    Executes (update q f) w ⟨q, true, none⟩ := by
  have hin : (w.modify (fun _ => writing) q).handle q = { writing with held := some .exclusive } :=
    handle_modify
  have hselect := @execute_run (w.modify (fun _ => writing) q) q false true (by rw [hin]; rfl)
  have hcopy : Many (copyFile q f.data) (w.modify (fun _ => writing) q) _ :=
    .next copyFile_run rfl (.stop _)
  rw [hf] at hcopy
  obtain ⟨o, ho, he⟩ := transaction_breaks hw
    ⟨_, andThen_run optional_run (andThen_run optional_run (andThen_run optional_run
      (andThen_run hselect hcopy)))⟩
  unfold update
  rw [hf]
  exact ⟨_, tmpStdin_run ho, he⟩

theorem touch_breaks (hw : w.handle q = idle) {jobs : List Files}
    (hjobs : jobs.any Files.hasLock = true) : Executes (touch q jobs) w ⟨q, true, none⟩ := by
  refine transaction_breaks hw ?_
  have hin : (w.modify (fun _ => writing) q).handle q = { writing with held := some .exclusive } :=
    handle_modify
  obtain ⟨tr, hlist⟩ := list_run hin ["pending".toList]
  have hjob : ∀ {w : World} {k : Option Kind}, w.handle q = { writing with held := k } → ∀ f,
      ∃ tr, either (updateJob q f) (submit q [f]) w ⟨tr, w.closed f.hasLock q, true⟩ := by
    intro w k hw f
    obtain ⟨tr, h⟩ := submitBlock_run hw [f]
    rw [List.any_cons, List.any_nil, Bool.or_false] at h
    exact ⟨tr, .inr ((transaction_nested hw).mpr h)⟩
  obtain ⟨tr', h⟩ := each_run hjob jobs hin
  rw [hjobs] at h
  exact ⟨_, andThen_run hlist h⟩

/-- A mode that closes the lock file has a run that goes on without it. -/
theorem mode_breaks (hw : w.handle q = idle) {m : Mode} (hm : m.closesLock = true) :
    Executes (m.code q) w ⟨q, true, none⟩ := by
  cases m with
  | submit jobs => exact submit_breaks hw hm
  | resubmit whats f => exact resubmit_breaks hw hm
  | update f => exact update_breaks hw hm
  | touch jobs => exact touch_breaks hw hm
  | _ => exact absurd hm Bool.false_ne_true

/-- A text that is not quiet is executed under the shared lock. -/
theorem query_breaks (hw : w.handle q = idle) {whereClause : Option Text}
    (hquiet : quiet (querySql whereClause) = false) :
    Executes (query q whereClause) w ⟨q, true, some .shared⟩ := by
  have hexec := @execute_run (w.modify (fun _ => reading) q) q (!quiet (querySql whereClause)) true
    (by rw [handle_modify]; rfl)
  obtain ⟨w'', h⟩ := roTransaction_run hw hexec
  refine ⟨_, h, ?_⟩
  rw [handle_modify, hquiet]
  exact List.mem_singleton_self _

theorem reads_run (hw : (w.handle q).qdbInTransaction = true) : ∀ texts : List Text,
    texts.foldr (fun sql a => andThen (execute q (!quiet sql)) a) ret w
      ⟨texts.map fun sql => ⟨q, !quiet sql, (w.handle q).held⟩, w, true⟩
  | [] => rfl
  | _ :: texts => andThen_run (execute_run hw) (reads_run hw texts)

theorem status_breaks (hw : w.handle q = idle) {texts : List Text}
    (hquiet : texts.all quiet = false) :
    Executes (status q texts) w ⟨q, true, some .shared⟩ := by
  have hreads := @reads_run (w.modify (fun _ => reading) q) q (by rw [handle_modify]; rfl) texts
  obtain ⟨w'', h⟩ := roTransaction_run hw hreads
  refine ⟨_, h, ?_⟩
  obtain ⟨sql, hsql, hbad⟩ : ∃ sql ∈ texts, quiet sql = false := by
    simpa using hquiet
  refine List.mem_map.mpr ⟨sql, hsql, ?_⟩
  rw [handle_modify, hbad]
  rfl

/-- A copy that does not pass its check is vacuumed without its lock. -/
theorem takeSnapshot_breaks {c : Copies} {i : Nat} (hpass : c.passes i = false)
    (hw : w = start ∨ w = start.hold (some .exclusive) .live) :
    ∃ tr, takeSnapshot c i w ⟨tr, start, false⟩ ∧ (⟨.snapshot, true, none⟩ : Event) ∈ tr := by
  have hcopy : copyLive w ⟨[], start, true⟩ := by
    refine ⟨rfl, .inl ?_⟩
    rcases hw with rfl | rfl <;> rfl
  have hcheck : ∀ {q r}, integrityCheck q start ⟨[⟨q, false, (start.handle q).held⟩], start, r⟩ :=
    ⟨rfl, .inl rfl⟩
  have hrescue : rescued (andThen (integrityCheck .live) (if c.livePasses i then ret else recover .live))
      start ⟨[⟨.live, false, none⟩], start, true⟩ := ⟨false, andThen_raised hcheck, rfl⟩
  have h := andThen_run hcopy (andThen_run (@hcheck .snapshot true)
    (andThen_run hrescue (recover_raises (w := start) (q := .snapshot) rfl)))
  unfold takeSnapshot
  rw [if_neg (by rw [hpass]; simp)]
  exact ⟨_, h, by simp⟩

/-- A copy that passes. -/
theorem takeSnapshot_run {c : Copies} {i : Nat} (hpass : c.passes i = true)
    (hw : w = start ∨ w = start.hold (some .exclusive) .live) :
    ∃ tr, takeSnapshot c i w ⟨tr, start, true⟩ := by
  have hcopy : copyLive w ⟨[], start, true⟩ := by
    refine ⟨rfl, .inl ?_⟩
    rcases hw with rfl | rfl <;> rfl
  have hcheck : integrityCheck .snapshot start ⟨[⟨.snapshot, false, none⟩], start, true⟩ :=
    ⟨rfl, .inl rfl⟩
  unfold takeSnapshot
  rw [if_pos hpass]
  exact ⟨_, andThen_run hcopy (andThen_run hcheck rfl)⟩

theorem snapshot_executes {c : Copies} {rest : Code} {e : Event} {n i : Nat}
    (hpass : c.passes i = true) (hrest : Executes rest start e) :
    Executes (snapshot c rest n i) start e := by
  obtain ⟨o, ho, he⟩ := hrest
  cases n with
  | zero =>
    obtain ⟨tr, h⟩ := takeSnapshot_run hpass (.inr rfl)
    unfold snapshot
    rw [if_pos hpass]
    exact ⟨_, andThen_run (Retried.last (aquireLock_run h)) ho, List.mem_append_right _ he⟩
  | succ n =>
    obtain ⟨tr, h⟩ := takeSnapshot_run hpass (.inl rfl)
    unfold snapshot
    rw [if_pos hpass]
    exact ⟨_, andThen_run h ho, List.mem_append_right _ he⟩

theorem snapshot_breaks {c : Copies} {rest : Code} {n i : Nat} (hpass : c.passes i = false) :
    Executes (snapshot c rest n i) start ⟨.snapshot, true, none⟩ := by
  cases n with
  | zero =>
    obtain ⟨tr, h, he⟩ := takeSnapshot_breaks hpass (.inr rfl)
    exact ⟨_, andThen_raised (Retried.last (aquireLock_run h)), he⟩
  | succ n =>
    obtain ⟨tr, h, he⟩ := takeSnapshot_breaks hpass (.inl rfl)
    exact ⟨_, andThen_raised h, he⟩

end Breaks

/-! ## Exactly the safe commands -/

section Commands

variable {cmd : Command}

/-- The queue a command works on. -/
def Command.queue (cmd : Command) : Queue := if cmd.copies.isSome then .snapshot else .live

/-- What the mode can do on its queue, the command can. -/
theorem Command.executes (hpass : ∀ c, cmd.copies = some c → c.passes 0 = true) {e : Event}
    (h : Executes (cmd.mode.code cmd.queue) start e) : Executes cmd.code start e := by
  unfold Command.queue at h
  unfold Command.code
  cases hc : cmd.copies with
  | none =>
    rw [hc] at h
    exact h
  | some c =>
    rw [hc] at h
    exact snapshot_executes (hpass c hc) h

/-- A safe command keeps the discipline. -/
theorem Command.Safe.keeps (h : cmd.Safe) :
    Keeps (· = start) (Disciplined cmd.mode) cmd.code := by
  have hmode : ∀ q : Queue, cmd.mode ≠ .rotate →
      Keeps (· = start) (Disciplined cmd.mode) (cmd.mode.code q) := by
    intro q hne
    refine outside_mode h.notDelete h.notRecover hne h.keepsLock h.quiet start ?_ rfl rfl
    cases q <;> rfl
  unfold Command.code
  cases hc : cmd.copies with
  | none =>
    refine hmode .live fun hrot => ?_
    have hsome := h.notRotate hrot
    rw [hc] at hsome
    cases hsome
  | some c =>
    refine keeps_snapshot (h.passes c hc) ?_
    by_cases hrot : cmd.mode = .rotate
    · rw [hrot]
      exact keeps_rotate rfl rfl rfl rfl
    · exact hmode .snapshot hrot

theorem idle_queue (q : Queue) : start.handle q = idle := by
  cases q <;> rfl

/-- A command that keeps the discipline is safe: each way not to be has a run that breaks it. -/
theorem Command.safe_of_disciplined
    (h : ∀ o, cmd.code start o → ∀ e ∈ o.trace, Disciplined cmd.mode e) : cmd.Safe := by
  have hbad : ∀ {q k}, k ≠ some .exclusive → ¬ Executes cmd.code start ⟨q, true, k⟩ := by
    rintro q k hk ⟨o, ho, he⟩
    exact hk ((h o ho _ he).1 rfl)
  have hpass : ∀ c, cmd.copies = some c → c.passes 0 = true := by
    intro c hc
    by_contra hne
    refine @hbad .snapshot none (by simp) ?_
    unfold Command.code
    rw [hc]
    exact snapshot_breaks (by simpa using hne)
  refine ⟨?_, ?_, ?_, ?_, ?_, hpass⟩
  · intro hm
    refine @hbad cmd.queue none (by simp) (Command.executes hpass ?_)
    rw [hm]
    exact delete_breaks (idle_queue _)
  · intro hm
    refine @hbad cmd.queue none (by simp) (Command.executes hpass ?_)
    rw [hm]
    exact ⟨_, recover_raises (idle_queue _), List.mem_singleton_self _⟩
  · intro hm
    by_contra hnone
    refine @hbad .live none (by simp) (Command.executes hpass ?_)
    unfold Command.queue
    rw [hm, if_neg hnone]
    exact rotate_breaks
  · by_contra hlock
    exact @hbad cmd.queue none (by simp) (Command.executes hpass
      (mode_breaks (idle_queue _) (by simpa using hlock)))
  · by_contra hne
    refine @hbad cmd.queue (some .shared) (by simp) (Command.executes hpass ?_)
    cases hm : cmd.mode <;> rw [hm] at hne
    case status texts => exact status_breaks (idle_queue _) (by simpa [Mode.quiet] using hne)
    case query w => exact query_breaks (idle_queue _) (by simpa [Mode.quiet] using hne)
    all_goals exact absurd rfl hne

end Commands

/-- A command without the snapshot option. -/
def plain (m : Mode) (h : m.snapshots = false) : Command := ⟨m, none, fun h' => absurd h' (by rw [h]; simp)⟩

/-- `rq queue list` when the first copy is torn. -/
def listTorn : Command :=
  ⟨.list [], some ⟨16, fun _ => false, fun _ => true, fun _ => true⟩, fun _ => rfl⟩

/-- With a lockd recovery by another process, a transaction can lose its lock as well. -/
theorem recovered_without_lock :
    Executes (plain (.submit [{}]) rfl).code { start with calm := false } ⟨.live, true, none⟩ := by
  have hbegin : execute .live false (World.modify { start with calm := false } (fun _ => writing) .live)
      ⟨[⟨.live, false, some .exclusive⟩], World.modify { start with calm := false } (fun _ => writing) .live,
        true⟩ := execute_run rfl
  have hinsert : execute .live true (World.modify { start with calm := false } (fun _ => writing) .live)
      ⟨[⟨.live, true, none⟩],
        (World.modify { start with calm := false } (fun _ => writing) .live).hold none .live, false⟩ :=
    .inr (.inl ⟨rfl, rfl, rfl, rfl⟩)
  have hjobs : each (writeJob .live) [{}] (World.modify { start with calm := false } (fun _ => writing) .live)
      _ := andThen_raised (@tmpStdin_run _ _ _ _ _ _ false (andThen_raised hinsert))
  have hblock : block .live _ .exclusive
      (World.modify { start with calm := false } (fun _ => writing) .live) _ :=
    andThen_run hbegin (andThen_raised (andThen_run hbegin hjobs))
  exact ⟨_, transaction_run rfl hblock, by simp⟩

end RubyQueue.Locking
