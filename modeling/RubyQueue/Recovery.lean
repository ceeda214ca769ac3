/-
  Does a transaction survive a lockd recovery?

  `QDB#lockd_recover` moves the queue directory away, replaces `db` and `lock` by fresh copies of
  themselves, checks the copy and moves the directory back.  It does not hold the queue lock, so
  another process may be anywhere in a `QDB#transaction` meanwhile.  A handle that is open stays on
  the OLD inode; and SQLite names its journal by the path, so a journal that should be deleted
  while the directory is away stays in it, and whoever opens the database next rolls the
  transaction back with it.

  `lockd_recover_wrap` would notice from the mtime of a marker, but looks at the result only when
  an error was raised.  `committed_survives`: a transaction that returned is in the database found
  at the path afterwards if, each time it deleted its journal, the directory was in its place with
  the file the transaction had open; `commit_after_swap_is_lost`: otherwise it need not be.

  `δ` is the contents of a database, with `default` for that of a file just created.
-/
import RubyQueue.Base.Run
import RubyQueue.Transaction

namespace RubyQueue.Recovery

open RubyQueue.Run RubyQueue.Qdb

universe u

/-! ## The two processes -/

/-- The files that are replaced, in the order of `rfiles`. -/
inductive File
  | db
  | lock
deriving DecidableEq, Repr

/-- Where `lockd_recover` is: about to do what the name says. -/
inductive Stage
  | idle
  -- `time` was taken, the marker is still to be looked at
  | entering (time : Nat)
  -- `sleep @lockd_recover_wait`, then `mv @dirname, tmp`
  | sleeping
  -- `rm_rf ftmp`, `cp f, ftmp`, `rm f`, `mv ftmp, f`
  | clearing (f : File)
  | copying (f : File)
  | removing (f : File)
  | moving (f : File)
  | checking
  -- `mv tmp, @dirname`, after the integrity check said `ok`
  | restoring (ok : Bool)
  -- `cp @lockd_recover_lockf.path, @lockd_recover`
  | marking
  | finished
deriving DecidableEq, Repr

/-- The queue directory is at `tmp`. -/
def Stage.away : Stage → Bool
  | .clearing _ | .copying _ | .removing _ | .moving _ | .checking | .restoring _ => true
  | _ => false

/-- Where the transaction is.  `lock` and `handle` are the inodes it has open; `orig` is what its
    journal can restore and `view` the database as its statements have left it. -/
inductive Txn (δ : Type u)
  | idle
  | acquiring
  | polling (lock : Nat)
  | locked (lock : Nat)
  | connected (lock handle : Nat)
  | working (lock handle : Nat) (orig view : δ)
  -- in `commit`: the pages are written, the journal is still there
  | flushed (lock handle : Nat) (orig view : δ)
  | committed (lock : Nat) (view : δ)
  -- an error has left `aquire_lock`
  | raised (e : Err)
  | returned (view : δ)
  | failed
deriving DecidableEq, Repr

structure State (δ : Type u) where
  names : File → Option Nat
  /-- `db.tmp` and `lock.tmp` -/
  tmps : File → Option Nat
  content : Nat → δ
  /-- `db-journal`: the contents it restores -/
  journal : Option δ
  nextInode : Nat
  now : Nat
  /-- the mtime of `@lockd_recover` -/
  marker : Option Nat
  recovery : Stage
  txn : Txn δ
  errors : Nat
  oldMtime : Nat
  tryAgain : Bool

/-- Who takes a step, with what is left open. -/
inductive Label (δ : Type u)
  | tick
  | startRecovery
  -- the next operation of the recovery: `torn` is what a copy has made of a file while it was
  -- being written, `ok` the result of the check
  | recover (torn : Option δ) (ok : Bool)
  | start
  -- the next operation of the transaction
  | run
  -- the lock is not granted
  | refuse
  -- a statement of the block
  | work (view : δ)
  -- a page leaves the cache before the commit
  | spill (pages : δ)
  | commit
  | raise (e : Err)

variable {δ : Type u}

/-- The inode whose pages the transaction may be writing. -/
def Txn.writes : Txn δ → Option Nat
  | .working _ h _ _ | .flushed _ h _ _ => some h
  | _ => none

/-- A new file for a name. -/
def State.create [Inhabited δ] (s : State δ) (f : File) : State δ :=
  { s with
    names := Function.update s.names f (some s.nextInode)
    content := Function.update s.content s.nextInode default
    nextInode := s.nextInode + 1 }

/-- SQLite opens a database beside which there is a journal: it writes the old pages back and
    deletes the journal. -/
def State.playback (s : State δ) (i : Nat) : State δ :=
  { s with
    content := match s.journal with
      | none => s.content
      | some orig => Function.update s.content i orig
    journal := none }

/-- SQLite deletes the journal, by its path and without looking at the result. -/
def State.unlinkJournal (s : State δ) : State δ :=
  { s with journal := if s.recovery.away then s.journal else none }

/-! ## `lockd_recover` -/

/-- The step after the four operations on `f`. -/
def afterFile : File → Stage
  | .db => .clearing .lock
  | .lock => .checking

/-- What `cp` reads.  A file that is being written can come out torn. -/
def copied (s : State δ) (i : Nat) (torn : Option δ) : δ :=
  match torn with
  | some v => if s.txn.writes = some i then v else s.content i
  | none => s.content i

/-- The next operation of the recovery. -/
def recoverStep (s : State δ) (torn : Option δ) (ok : Bool) : Option (State δ) :=
  match s.recovery with
  | .idle => none
  | .entering time =>
    -- another node has recovered already, or `touch`
    if time < s.marker.getD time then some { s with recovery := .finished }
    else some { s with marker := some s.now, recovery := .sleeping }
  | .sleeping => some { s with recovery := .clearing .db }
  | .clearing f =>
    some { s with tmps := Function.update s.tmps f none, recovery := .copying f }
  | .copying f =>
    match s.names f with
    -- `cp` raises; `ensure` moves the directory back
    | none => some { s with recovery := .restoring false }
    | some i => some { s with
        tmps := Function.update s.tmps f (some s.nextInode)
        content := Function.update s.content s.nextInode (copied s i torn)
        nextInode := s.nextInode + 1
        recovery := .removing f }
  | .removing f =>
    some { s with names := Function.update s.names f none, recovery := .moving f }
  | .moving f =>
    some { s with
      names := Function.update s.names f (s.tmps f)
      tmps := Function.update s.tmps f none
      recovery := afterFile f }
  | .checking =>
    match s.names .db with
    | none => some { s with recovery := .restoring false }
    | some i => some { s.playback i with recovery := .restoring ok }
  | .restoring ok => some { s with recovery := if ok then .marking else .finished }
  | .marking => some { s with marker := some s.now, recovery := .finished }
  | .finished => none

/-! ## `transaction` -/

/-- The transaction leaves its attempt with an error.  An open SQLite transaction is rolled back:
    the pages are restored and the journal is deleted. -/
def State.raise (s : State δ) (e : Err) : State δ :=
  match s.txn with
  | .working _ h orig _ | .flushed _ h orig _ =>
    { s.unlinkJournal with content := Function.update s.content h orig, txn := .raised e }
  | _ => { s with txn := .raised e }

/-- `lockd_recover_wrap` reads the marker: at the start … -/
def mtimeBefore (s : State δ) : Nat := s.marker.getD s.now

/-- … and in `ensure`. -/
def mtimeAfter (s : State δ) : Nat := s.marker.getD s.oldMtime

/-- What becomes of an error: `transaction_wrap` retries, or `lockd_recover_wrap` does, or it
    leaves `transaction`. -/
def handleError (retries : Nat) (s : State δ) (e : Err) : State δ :=
  if retriesAfter retries s.errors e then
    { s with errors := s.errors + 1, txn := .acquiring }
  else if s.tryAgain || decide (s.oldMtime < mtimeAfter s) then
    { s with errors := 0, tryAgain := true, oldMtime := mtimeBefore s, txn := .acquiring }
  else { s with txn := .failed }

/-- The next operation of the transaction. -/
def runStep [Inhabited δ] (retries : Nat) (s : State δ) : Option (State δ) :=
  match s.txn with
  | .acquiring =>
    -- `open(@lockfile, 'a+')`
    if s.recovery.away then some (s.raise .standard)
    else
      match s.names .lock with
      | none => some { s.create .lock with txn := .polling s.nextInode }
      | some i => some { s with txn := .polling i }
  | .polling l => some { s with txn := .locked l }
  | .locked l =>
    -- `connect`
    if s.recovery.away then some (s.raise .standard)
    else
      match s.names .db with
      | none => some { s.create .db with txn := .connected l s.nextInode }
      | some i => some { s with txn := .connected l i }
  | .connected l h =>
    -- `begin`: a journal that is there is played back, and a new one is made
    if s.recovery.away then some (s.raise .standard)
    else
      let s := s.playback h
      some { s with journal := some (s.content h), txn := .working l h (s.content h) (s.content h) }
  | .flushed l _ _ view => some { s.unlinkJournal with txn := .committed l view }
  | .committed _ view => some { s with txn := .returned view }
  | .raised e => some (handleError retries s e)
  | _ => none

/-- An attempt is under way. -/
def Txn.inAttempt : Txn δ → Bool
  | .idle | .raised _ | .returned _ | .failed => false
  | _ => true

def step [Inhabited δ] (retries : Nat) (s : State δ) : Label δ → Option (State δ)
  | .tick => some { s with now := s.now + 1 }
  | .startRecovery =>
    match s.recovery with
    | .idle | .finished => some { s with recovery := .entering s.now }
    | _ => none
  | .recover torn ok => recoverStep s torn ok
  | .start =>
    match s.txn with
    | .idle => some { s with errors := 0, oldMtime := mtimeBefore s, txn := .acquiring }
    | _ => none
  | .run => runStep retries s
  | .refuse =>
    match s.txn with
    | .polling _ => some { s with txn := .acquiring }
    | _ => none
  | .work view =>
    match s.txn with
    | .working l h orig _ => some { s with txn := .working l h orig view }
    | _ => none
  | .spill pages =>
    match s.txn with
    | .working _ h _ _ => some { s with content := Function.update s.content h pages }
    | _ => none
  | .commit =>
    match s.txn with
    | .working l h orig view =>
      some { s with content := Function.update s.content h view, txn := .flushed l h orig view }
    | _ => none
  | .raise e => if s.txn.inAttempt then some (s.raise e) else none

/-- Nobody has begun; a journal may have been left behind. -/
def Initial (s : State δ) : Prop :=
  s.recovery = .idle ∧ s.txn = .idle ∧ s.tryAgain = false ∧ (∃ i, s.names .db = some i) ∧
    ∀ f i, s.names f = some i → i < s.nextInode

/-- What the next process finds at the queue path: a journal that is there is played back. -/
def found (s : State δ) : Option δ :=
  (s.names .db).map fun i => s.journal.getD (s.content i)

/-- **The condition.**  When the transaction deletes its journal the queue directory is in its
    place, and its `db` is the file the transaction has open. -/
def InPlace (s : State δ) : Label δ → Prop
  | .run =>
    match s.txn with
    | .flushed _ h _ _ => s.recovery.away = false ∧ s.names .db = some h
    | _ => True
  | _ => True

/-! ## The invariant -/

/-- The database the transaction has open. -/
def Txn.handle : Txn δ → Option Nat
  | .connected _ h | .working _ h _ _ | .flushed _ h _ _ => some h
  | _ => none

/-- What the transaction has committed. -/
def Txn.result : Txn δ → Option δ
  | .committed _ view | .returned view => some view
  | _ => none

/-- `db.tmp` is a copy of `db`. -/
def Stage.hasCopy : Stage → Bool
  | .removing .db | .moving .db => true
  | _ => false

/-- `db` is the copy, and nobody else has seen it yet. -/
def Stage.swapped : Stage → Bool
  | .clearing .lock | .copying .lock | .removing .lock | .moving .lock | .checking => true
  | _ => false

structure Inv (s : State δ) : Prop where
  names_lt : ∀ i, s.names .db = some i → i < s.nextInode
  handle_lt : ∀ h, s.txn.handle = some h → h < s.nextInode
  copy : s.recovery.hasCopy = true →
    ∃ y, s.tmps .db = some y ∧ y < s.nextInode ∧ s.txn.handle ≠ some y
  swapped : s.recovery.swapped = true → ∀ y, s.names .db = some y → s.txn.handle ≠ some y
  present : s.recovery ≠ .moving .db → ∃ i, s.names .db = some i
  flushed : ∀ l h orig view, s.txn = .flushed l h orig view → s.content h = view
  /-- What is committed is in `db`, in its copy, and in no danger of being rolled back. -/
  settled : ∀ view, s.txn.result = some view → s.journal = none ∧
    (∀ i, s.names .db = some i → s.content i = view) ∧
    (s.recovery.hasCopy = true → ∀ y, s.tmps .db = some y → s.content y = view)

theorem away_of_hasCopy {r : Stage} (h : r.hasCopy = true) : r.away = true := by
  cases r <;> simp_all [Stage.hasCopy, Stage.away]

theorem away_of_swapped {r : Stage} (h : r.swapped = true) : r.away = true := by
  cases r <;> simp_all [Stage.swapped, Stage.away]

theorem handle_of_flushed {t : Txn δ} {l h : Nat} {orig view : δ} (ht : t = .flushed l h orig view) :
    t.handle = some h := by
  subst ht
  rfl

/-! ## Steps of the transaction -/

/-- A step of the transaction leaves `db` where it is, and opens it only while the directory is in
    its place. -/
theorem Inv.txnStep {s t : State δ} (hi : Inv s) (hnames : t.names .db = s.names .db)
    (htmps : t.tmps .db = s.tmps .db) (hnext : s.nextInode ≤ t.nextInode)
    (hrec : t.recovery = s.recovery)
    (hhandle : ∀ h, t.txn.handle = some h →
      s.txn.handle = some h ∨ (s.recovery.away = false ∧ s.names .db = some h))
    (hflushed : ∀ l h orig view, t.txn = .flushed l h orig view → t.content h = view)
    (hsettled : ∀ view, t.txn.result = some view → t.journal = none ∧
      (∀ i, t.names .db = some i → t.content i = view) ∧
      (t.recovery.hasCopy = true → ∀ y, t.tmps .db = some y → t.content y = view)) : Inv t where
  names_lt i h := by
    have := hi.names_lt i (hnames ▸ h)
    omega
  handle_lt h hh := by
    rcases hhandle h hh with hh | ⟨-, hh⟩
    · have := hi.handle_lt h hh
      omega
    · have := hi.names_lt h hh
      omega
  copy hc := by
    rw [hrec] at hc
    obtain ⟨y, hy, hlt, hne⟩ := hi.copy hc
    refine ⟨y, htmps ▸ hy, by omega, fun hh => ?_⟩
    rcases hhandle y hh with hh | ⟨haway, -⟩
    · exact hne hh
    · simp [away_of_hasCopy hc] at haway
  swapped hs y hy hh := by
    rw [hrec] at hs
    rcases hhandle y hh with hh | ⟨haway, -⟩
    · exact hi.swapped hs y (hnames ▸ hy) hh
    · simp [away_of_swapped hs] at haway
  present hr := by
    rw [hnames]
    exact hi.present (hrec ▸ hr)
  flushed := hflushed
  settled := hsettled

/-- A step after which nothing is flushed and nothing committed. -/
theorem Inv.unsettled {s t : State δ} (hi : Inv s) (hnames : t.names .db = s.names .db)
    (htmps : t.tmps .db = s.tmps .db) (hnext : s.nextInode ≤ t.nextInode)
    (hrec : t.recovery = s.recovery)
    (hhandle : ∀ h, t.txn.handle = some h →
      s.txn.handle = some h ∨ (s.recovery.away = false ∧ s.names .db = some h))
    (hflushed : ∀ l h orig view, t.txn ≠ .flushed l h orig view)
    (hresult : t.txn.result = none) : Inv t := by
  refine hi.txnStep hnames htmps hnext hrec hhandle ?_ ?_
  · exact fun l h orig view ht => absurd ht (hflushed l h orig view)
  · intro view ht
    rw [hresult] at ht
    cases ht

/-- A step after which the transaction has no database open and nothing committed. -/
theorem Inv.closed {s t : State δ} (hi : Inv s) (hnames : t.names .db = s.names .db)
    (htmps : t.tmps .db = s.tmps .db) (hnext : s.nextInode ≤ t.nextInode)
    (hrec : t.recovery = s.recovery) (hhandle : t.txn.handle = none)
    (hresult : t.txn.result = none) : Inv t := by
  refine hi.unsettled hnames htmps hnext hrec ?_ ?_ hresult
  · intro h hh
    rw [hhandle] at hh
    cases hh
  · intro l h orig view ht
    rw [handle_of_flushed ht] at hhandle
    cases hhandle

theorem Inv.raise {s : State δ} (hi : Inv s) (e : Err) : Inv (s.raise e) := by
  unfold State.raise
  split
  all_goals
    exact hi.closed rfl rfl (Nat.le_refl _) rfl rfl rfl

theorem Inv.handleError {s : State δ} (hi : Inv s) (retries : Nat) (e : Err) :
    Inv (handleError retries s e) := by
  unfold Recovery.handleError
  split
  · exact hi.closed rfl rfl (Nat.le_refl _) rfl rfl rfl
  · split
    all_goals
      exact hi.closed rfl rfl (Nat.le_refl _) rfl rfl rfl

/-- The journal is deleted, in its place: what was flushed is committed. -/
theorem Inv.commit {s : State δ} (hi : Inv s) {l h : Nat} {orig view : δ}
    (ht : s.txn = .flushed l h orig view) (haway : s.recovery.away = false)
    (hdb : s.names .db = some h) : Inv { s.unlinkJournal with txn := .committed l view } := by
  refine hi.txnStep rfl rfl (Nat.le_refl _) rfl (fun _ h => nomatch h)
    (fun _ _ _ _ h => nomatch h) ?_
  intro view' hview
  obtain rfl : view = view' := Option.some.inj hview
  refine ⟨by simp [State.unlinkJournal, haway], ?_, ?_⟩
  · intro i hi'
    obtain rfl : h = i := Option.some.inj (hdb.symm.trans hi')
    exact hi.flushed l h orig view ht
  · intro hcopy
    have := away_of_hasCopy hcopy
    simp [State.unlinkJournal, haway] at this

/-- The next operation of the transaction. -/
theorem Inv.runStep [Inhabited δ] {retries : Nat} {s t : State δ} (hi : Inv s)
    (hg : InPlace s .run) (hst : runStep retries s = some t) : Inv t := by
  unfold Recovery.runStep at hst
  cases ht : s.txn with
  | acquiring =>
    simp only [ht] at hst
    split at hst
    · obtain rfl := Option.some.inj hst
      exact hi.raise _
    · cases hl : s.names .lock with
      | none =>
        simp only [hl] at hst
        obtain rfl := Option.some.inj hst
        exact hi.closed (by simp [State.create]) rfl (Nat.le_succ _) rfl rfl rfl
      | some i =>
        simp only [hl] at hst
        obtain rfl := Option.some.inj hst
        exact hi.closed rfl rfl (Nat.le_refl _) rfl rfl rfl
  | polling l =>
    simp only [ht] at hst
    obtain rfl := Option.some.inj hst
    exact hi.closed rfl rfl (Nat.le_refl _) rfl rfl rfl
  | locked l =>
    simp only [ht] at hst
    split at hst
    · obtain rfl := Option.some.inj hst
      exact hi.raise _
    · rename_i haway
      have haway : s.recovery.away = false := by simpa using haway
      -- in its place the directory has a `db`
      obtain ⟨i, hdb⟩ := hi.present fun h => by simp [h, Stage.away] at haway
      simp only [hdb] at hst
      obtain rfl := Option.some.inj hst
      refine hi.unsettled rfl rfl (Nat.le_refl _) rfl ?_ (fun _ _ _ _ h => nomatch h) rfl
      intro h hh
      obtain rfl : i = h := Option.some.inj hh
      exact Or.inr ⟨haway, hdb⟩
  | connected l h =>
    simp only [ht] at hst
    split at hst
    · obtain rfl := Option.some.inj hst
      exact hi.raise _
    · obtain rfl := Option.some.inj hst
      refine hi.unsettled rfl rfl (Nat.le_refl _) rfl ?_ (fun _ _ _ _ h => nomatch h) rfl
      intro h' hh
      rw [ht]
      exact Or.inl hh
  | flushed l h orig view =>
    simp only [ht] at hst
    simp only [InPlace, ht] at hg
    obtain rfl := Option.some.inj hst
    exact hi.commit ht hg.1 hg.2
  | committed l view =>
    simp only [ht] at hst
    obtain rfl := Option.some.inj hst
    refine hi.txnStep rfl rfl (Nat.le_refl _) rfl (fun _ h => nomatch h)
      (fun _ _ _ _ h => nomatch h) ?_
    intro view' hview
    exact hi.settled view' (by rw [ht]; exact hview)
  | raised e =>
    simp only [ht] at hst
    obtain rfl := Option.some.inj hst
    exact hi.handleError retries e
  | idle | working l h orig view | returned view | failed =>
    simp only [ht] at hst
    cases hst

/-! ## Steps of the recovery -/

/-- A step that only takes the recovery on. -/
theorem Inv.stage {s t : State δ} {r : Stage} (hi : Inv s) (hs : s.recovery = r)
    (hnames : t.names .db = s.names .db)
    (hcontent : t.content = s.content) (hjournal : t.journal = s.journal)
    (hnext : t.nextInode = s.nextInode) (htxn : t.txn = s.txn)
    (hcopy : t.recovery.hasCopy = false)
    (hswapped : t.recovery.swapped = true → r.swapped = true)
    (hpresent : r ≠ .moving .db) : Inv t where
  names_lt i h := by
    rw [hnext]
    exact hi.names_lt i (hnames ▸ h)
  handle_lt h hh := by
    rw [hnext]
    exact hi.handle_lt h (htxn ▸ hh)
  copy h := by simp [hcopy] at h
  swapped h y hy := by
    rw [htxn]
    exact hi.swapped (hs ▸ hswapped h) y (hnames ▸ hy)
  present _ := by
    rw [hnames]
    exact hi.present (hs ▸ hpresent)
  flushed l h orig view ht := by
    rw [hcontent]
    exact hi.flushed l h orig view (htxn ▸ ht)
  settled view hv := by
    obtain ⟨hj, hdb, -⟩ := hi.settled view (htxn ▸ hv)
    refine ⟨hjournal ▸ hj, fun i h => ?_, fun h => by simp [hcopy] at h⟩
    rw [hcontent]
    exact hdb i (hnames ▸ h)

/-- A transaction that has committed writes nothing, so the copy is exact. -/
theorem copied_of_result {s : State δ} {view : δ} (h : s.txn.result = some view) (i : Nat)
    (torn : Option δ) : copied s i torn = s.content i := by
  have hw : s.txn.writes = none := by
    cases ht : s.txn <;> simp_all [Txn.result, Txn.writes]
  cases torn with
  | none => rfl
  | some v => simp [copied, hw]

/-- `cp db, db.tmp`. -/
theorem Inv.copyDb {s : State δ} (hi : Inv s) {i : Nat} (hdb : s.names .db = some i)
    (torn : Option δ) :
    Inv { s with
      tmps := Function.update s.tmps .db (some s.nextInode)
      content := Function.update s.content s.nextInode (copied s i torn)
      nextInode := s.nextInode + 1
      recovery := .removing .db } where
  names_lt j h := Nat.lt_succ_of_lt (hi.names_lt j h)
  handle_lt h hh := Nat.lt_succ_of_lt (hi.handle_lt h hh)
  copy _ := by
    refine ⟨s.nextInode, by simp, Nat.lt_succ_self _, fun hh => ?_⟩
    have := hi.handle_lt s.nextInode hh
    omega
  swapped h := by cases h
  present _ := ⟨i, hdb⟩
  flushed l h orig view ht := by
    have hlt := hi.handle_lt h (handle_of_flushed ht)
    show Function.update s.content s.nextInode _ h = view
    rw [Function.update_of_ne (by omega)]
    exact hi.flushed l h orig view ht
  settled view hv := by
    obtain ⟨hj, hview, -⟩ := hi.settled view hv
    refine ⟨hj, fun j h => ?_, fun _ y hy => ?_⟩
    · have hlt := hi.names_lt j h
      show Function.update s.content s.nextInode _ j = view
      rw [Function.update_of_ne (by omega)]
      exact hview j h
    · obtain rfl : s.nextInode = y := by simpa using hy
      show Function.update s.content s.nextInode _ s.nextInode = view
      rw [Function.update_self, copied_of_result (s := s) hv, hview i hdb]

/-- `cp lock, lock.tmp`. -/
theorem Inv.copyLock {s : State δ} (hi : Inv s) (hs : s.recovery = .copying .lock)
    (v : δ) :
    Inv { s with
      tmps := Function.update s.tmps .lock (some s.nextInode)
      content := Function.update s.content s.nextInode v
      nextInode := s.nextInode + 1
      recovery := .removing .lock } where
  names_lt j h := Nat.lt_succ_of_lt (hi.names_lt j h)
  handle_lt h hh := Nat.lt_succ_of_lt (hi.handle_lt h hh)
  copy h := by cases h
  swapped _ := hi.swapped (by rw [hs]; rfl)
  present _ := hi.present (by simp [hs])
  flushed l h orig view ht := by
    have hlt := hi.handle_lt h (handle_of_flushed ht)
    show Function.update s.content s.nextInode _ h = view
    rw [Function.update_of_ne (by omega)]
    exact hi.flushed l h orig view ht
  settled view hv := by
    obtain ⟨hj, hview, -⟩ := hi.settled view hv
    refine ⟨hj, fun j h => ?_, fun h => by cases h⟩
    have hlt := hi.names_lt j h
    show Function.update s.content s.nextInode _ j = view
    rw [Function.update_of_ne (by omega)]
    exact hview j h

/-- `rm db`: what counts now is the copy. -/
theorem Inv.removeDb {s : State δ} (hi : Inv s) (hs : s.recovery = .removing .db) :
    Inv { s with names := Function.update s.names .db none, recovery := .moving .db } where
  names_lt j h := by simp at h
  handle_lt := hi.handle_lt
  copy _ := hi.copy (by rw [hs]; rfl)
  swapped h := by cases h
  present h := absurd rfl h
  flushed := hi.flushed
  settled view hv := by
    obtain ⟨hj, -, hcopy⟩ := hi.settled view hv
    exact ⟨hj, fun j h => by simp at h, fun _ => hcopy (by rw [hs]; rfl)⟩

/-- `mv db.tmp, db`: the copy is the database, and the transaction does not have it open. -/
theorem Inv.renameDb {s : State δ} (hi : Inv s) (hs : s.recovery = .moving .db) :
    Inv { s with
      names := Function.update s.names .db (s.tmps .db)
      tmps := Function.update s.tmps .db none
      recovery := afterFile .db } := by
  obtain ⟨y, hy, hlt, hne⟩ := hi.copy (by rw [hs]; rfl)
  have hnames : ∀ i, Function.update s.names .db (s.tmps .db) .db = some i → i = y := by
    intro i h
    rw [Function.update_self, hy] at h
    exact (Option.some.inj h).symm
  constructor
  · intro i h
    rw [hnames i h]
    exact hlt
  · exact hi.handle_lt
  · intro h
    cases h
  · intro _ i h
    rw [hnames i h]
    exact hne
  · exact fun _ => ⟨y, by simp [hy]⟩
  · exact hi.flushed
  · intro view hv
    obtain ⟨hj, -, hcopy⟩ := hi.settled view hv
    refine ⟨hj, fun i h => ?_, fun h => by cases h⟩
    rw [hnames i h]
    exact hcopy (by rw [hs]; rfl) y hy

theorem content_playback {s : State δ} {i h : Nat} (hne : h ≠ i) :
    (s.playback i).content h = s.content h := by
  cases hj : s.journal with
  | none => simp [State.playback, hj]
  | some orig => simp [State.playback, hj, hne]

/-- The integrity check opens the copy, and a journal that is there is played back. -/
theorem Inv.checkDb {s : State δ} (hi : Inv s) (hs : s.recovery = .checking) {i : Nat}
    (hdb : s.names .db = some i) (ok : Bool) :
    Inv { s.playback i with recovery := .restoring ok } := by
  have hne : ∀ h, s.txn.handle = some h → h ≠ i := by
    intro h hh heq
    exact hi.swapped (by rw [hs]; rfl) i hdb (heq ▸ hh)
  constructor
  · exact hi.names_lt
  · exact hi.handle_lt
  · intro h
    cases h
  · intro h
    cases h
  · exact fun _ => ⟨i, hdb⟩
  · intro l h orig view ht
    have hh := hne h (handle_of_flushed ht)
    show (s.playback i).content h = view
    rw [content_playback hh]
    exact hi.flushed l h orig view ht
  · intro view hv
    obtain ⟨hj, hview, -⟩ := hi.settled view hv
    refine ⟨rfl, fun j h => ?_, fun h => by cases h⟩
    simp only [State.playback, hj]
    exact hview j h

/-- The next operation of the recovery. -/
theorem Inv.recoverStep {s t : State δ} {torn : Option δ} {ok : Bool} (hi : Inv s)
    (hst : recoverStep s torn ok = some t) : Inv t := by
  unfold Recovery.recoverStep at hst
  cases hs : s.recovery with
  | idle =>
    simp only [hs] at hst
    cases hst
  | entering time =>
    simp only [hs] at hst
    split at hst
    all_goals
      obtain rfl := Option.some.inj hst
      exact hi.stage hs rfl rfl rfl rfl rfl rfl (fun h => nomatch h) (by simp)
  | sleeping =>
    simp only [hs] at hst
    obtain rfl := Option.some.inj hst
    exact hi.stage hs rfl rfl rfl rfl rfl rfl (fun h => nomatch h) (by simp)
  | clearing f =>
    simp only [hs] at hst
    obtain rfl := Option.some.inj hst
    refine hi.stage hs rfl rfl rfl rfl rfl rfl ?_ (by simp)
    cases f <;> exact id
  | copying f =>
    obtain ⟨j, hdb⟩ := hi.present (by simp [hs])
    simp only [hs] at hst
    cases f with
    | db =>
      simp only [hdb] at hst
      obtain rfl := Option.some.inj hst
      exact hi.copyDb hdb torn
    | lock =>
      split at hst
      · obtain rfl := Option.some.inj hst
        exact hi.stage hs rfl rfl rfl rfl rfl rfl (fun h => nomatch h) (by simp)
      · obtain rfl := Option.some.inj hst
        exact hi.copyLock hs _
  | removing f =>
    simp only [hs] at hst
    obtain rfl := Option.some.inj hst
    cases f with
    | db => exact hi.removeDb hs
    | lock =>
      exact hi.stage hs (by simp) rfl rfl rfl rfl rfl (fun _ => rfl) (by simp)
  | moving f =>
    simp only [hs] at hst
    obtain rfl := Option.some.inj hst
    cases f with
    | db => exact hi.renameDb hs
    | lock =>
      exact hi.stage hs (by simp) rfl rfl rfl rfl rfl (fun _ => rfl) (by simp)
  | checking =>
    obtain ⟨i, hdb⟩ := hi.present (by simp [hs])
    simp only [hs, hdb] at hst
    obtain rfl := Option.some.inj hst
    exact hi.checkDb hs hdb ok
  | restoring good =>
    simp only [hs] at hst
    obtain rfl := Option.some.inj hst
    refine hi.stage hs rfl rfl rfl rfl rfl ?_ ?_ (by simp)
    · cases good <;> rfl
    · cases good <;> exact fun h => nomatch h
  | marking =>
    simp only [hs] at hst
    obtain rfl := Option.some.inj hst
    exact hi.stage hs rfl rfl rfl rfl rfl rfl (fun h => nomatch h) (by simp)
  | finished =>
    simp only [hs] at hst
    cases hst

/-! ## Every step, and every run -/

theorem Inv.step [Inhabited δ] {retries : Nat} {s t : State δ} {a : Label δ} (hi : Inv s)
    (hg : InPlace s a) (hst : step retries s a = some t) : Inv t := by
  cases a with
  | tick =>
    obtain rfl := Option.some.inj hst
    exact hi.txnStep rfl rfl (Nat.le_refl _) rfl (fun _ h => Or.inl h) hi.flushed hi.settled
  | startRecovery =>
    simp only [Recovery.step] at hst
    split at hst
    · rename_i hs
      obtain rfl := Option.some.inj hst
      exact hi.stage hs rfl rfl rfl rfl rfl rfl (fun h => nomatch h) (by simp)
    · rename_i hs
      obtain rfl := Option.some.inj hst
      exact hi.stage hs rfl rfl rfl rfl rfl rfl (fun h => nomatch h) (by simp)
    · cases hst
  | recover torn ok => exact hi.recoverStep hst
  | start =>
    simp only [Recovery.step] at hst
    split at hst
    · obtain rfl := Option.some.inj hst
      exact hi.closed rfl rfl (Nat.le_refl _) rfl rfl rfl
    · cases hst
  | run => exact hi.runStep hg hst
  | refuse =>
    simp only [Recovery.step] at hst
    split at hst
    · obtain rfl := Option.some.inj hst
      exact hi.closed rfl rfl (Nat.le_refl _) rfl rfl rfl
    · cases hst
  | work view =>
    simp only [Recovery.step] at hst
    split at hst
    · rename_i ht
      obtain rfl := Option.some.inj hst
      refine hi.unsettled rfl rfl (Nat.le_refl _) rfl ?_ (fun _ _ _ _ h => nomatch h) rfl
      exact fun h hh => Or.inl (by rw [ht]; exact hh)
    · cases hst
  | spill pages =>
    simp only [Recovery.step] at hst
    split at hst
    · rename_i ht
      obtain rfl := Option.some.inj hst
      refine hi.unsettled rfl rfl (Nat.le_refl _) rfl (fun h hh => Or.inl hh) ?_ ?_
      · intro l h orig view hf
        rw [show _ = Txn.working _ _ _ _ from ht] at hf
        cases hf
      · rw [show _ = Txn.working _ _ _ _ from ht]
        rfl
    · cases hst
  | commit =>
    simp only [Recovery.step] at hst
    split at hst
    · rename_i l h orig view ht
      obtain rfl := Option.some.inj hst
      refine hi.txnStep rfl rfl (Nat.le_refl _) rfl ?_ ?_ (fun _ h => nomatch h)
      · exact fun h hh => Or.inl (by rw [ht]; exact hh)
      · intro l' h' orig' view' hf
        cases hf
        simp
    · cases hst
  | raise e =>
    simp only [Recovery.step, Option.ite_none_right_eq_some] at hst
    obtain rfl := Option.some.inj hst.2
    exact hi.raise e

theorem Inv.initial {s : State δ} (h : Initial s) : Inv s := by
  obtain ⟨hrec, htxn, -, hdb, hlt⟩ := h
  constructor
  · exact fun i hi => hlt .db i hi
  · intro h hh
    rw [htxn] at hh
    cases hh
  · intro hc
    rw [hrec] at hc
    cases hc
  · intro hc
    rw [hrec] at hc
    cases hc
  · exact fun _ => hdb
  · intro l h orig view ht
    rw [htxn] at ht
    cases ht
  · intro view hv
    rw [htxn] at hv
    cases hv

/-- **No committed transaction is lost.**  In every interleaving of recoveries with a transaction,
    its retries and its errors included: if each commit was made `InPlace` and the transaction has
    returned, then as soon as the directory is back its effect is what the next process finds. -/
theorem committed_survives [Inhabited δ] (retries : Nat) (s : State δ)
    (h : Reach Initial (step retries) InPlace s) (view : δ) (ht : s.txn = .returned view)
    (hback : s.recovery.away = false) : found s = some view := by
  have hi : Inv s := Reach.invariant (fun _ => Inv.initial) (fun _ _ _ hi hg => hi.step hg) h
  obtain ⟨i, hdb⟩ := hi.present fun hs => by simp [hs, Stage.away] at hback
  obtain ⟨hj, hview, -⟩ := hi.settled view (by rw [ht]; rfl)
  simp [found, hdb, hj, hview i hdb]

/-! ## A lost transaction, and one that survives -/

/-- A queue whose database holds 0. -/
def queue : State Nat where
  names
    | .db => some 0
    | .lock => some 1
  tmps := fun _ => none
  content := fun _ => 0
  journal := none
  nextInode := 2
  now := 100
  marker := none
  recovery := .idle
  txn := .idle
  errors := 0
  oldMtime := 0
  tryAgain := false

theorem initial_queue : Initial queue := by
  refine ⟨rfl, rfl, rfl, ⟨0, rfl⟩, fun f i h => ?_⟩
  cases f <;> cases h <;> decide

/-- All of `lockd_recover`. -/
def wholeRecovery : List (Label Nat) := .startRecovery :: List.replicate 13 (.recover none true)

/-- The transaction takes the lock, begins and writes 1; a recovery runs from its first to its last
    step; then the transaction commits, without an error. -/
def commitAfterSwap : List (Label Nat) :=
  [.start, .run, .run, .run, .run, .work 1] ++ wholeRecovery ++ [.commit, .run, .run]

theorem commit_after_swap_is_lost :
    ∃ s, Reach Initial (step 42) (fun _ _ => True) s ∧ s.txn = .returned 1 ∧
      s.recovery = .finished ∧ found s = some 0 := by
  obtain ⟨s, hs, hobs⟩ : ∃ s, exec (step 42) commitAfterSwap queue = some s ∧
      decide (s.txn = .returned 1 ∧ s.recovery = .finished ∧ found s = some 0) = true :=
    exists_of_any (by decide)
  exact ⟨s, Reach.exec (Reach.init initial_queue) (along_true _ _) hs, of_decide_eq_true hobs⟩

/-- The queue after the same transaction, with no recovery yet. -/
def committedQueue : State Nat :=
  (exec (step 42) [.start, .run, .run, .run, .run, .work 1, .commit, .run, .run] queue).getD queue

/-- The same transaction, committed before the recovery moves the directory. -/
theorem commit_before_recovery_survives :
    ∃ s, Reach Initial (step 42) InPlace s ∧ s.txn = .returned 1 ∧ s.recovery = .finished ∧
      s.names .db = some 2 ∧ found s = some 1 := by
  have h : Reach Initial (step 42) InPlace queue := Reach.init initial_queue
  have h := h.step (show InPlace _ .start from trivial) rfl
  have h := h.step (show InPlace _ .run from trivial) rfl
  have h := h.step (show InPlace _ .run from trivial) rfl
  have h := h.step (show InPlace _ .run from trivial) rfl
  have h := h.step (show InPlace _ .run from trivial) rfl
  have h := h.step (show InPlace _ (.work 1) from trivial) rfl
  have h := h.step (show InPlace _ .commit from trivial) rfl
  have h := h.step (show InPlace _ .run from ⟨rfl, rfl⟩) rfl
  have h : Reach Initial (step 42) InPlace committedQueue :=
    h.step (show InPlace _ .run from trivial) rfl
  -- from here on the steps are those of the recovery
  have hgood : ∀ a ∈ wholeRecovery, ∀ s, InPlace s a := by
    intro a ha s
    rcases List.mem_cons.mp ha with rfl | ha
    · trivial
    · rw [List.eq_of_mem_replicate ha]
      trivial
  obtain ⟨s, hs, hobs⟩ : ∃ s, exec (step 42) wholeRecovery committedQueue = some s ∧
      decide (s.txn = .returned 1 ∧ s.recovery = .finished ∧ s.names .db = some 2) = true :=
    exists_of_any (by decide)
  obtain ⟨ht, hrec, hdb⟩ := of_decide_eq_true hobs
  have hreach := Reach.exec h (along_of_forall hgood _) hs
  exact ⟨s, hreach, ht, hrec, hdb, committed_survives 42 s hreach 1 ht (by rw [hrec]; rfl)⟩

end RubyQueue.Recovery
