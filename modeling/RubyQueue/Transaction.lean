/-
  `QDB#transaction` of `lib/rq/qdb.rb`: four wrappers around a block of SQL.

      transaction
        lockd_recover_wrap     retries when the recovery marker has moved
          transaction_wrap     retries on any error but Aborted/RollbackTransactionError
            aquire_lock        opens the lock file, locks, and in `ensure` unlocks; then closes it
              connect          opens the database, and in `ensure` closes it
                begin; block; commit

  Each wrapper is a function from blocks to blocks, a block being `State → State × Option Err`
  (`none`: it returned).  Which calls raise on one attempt is a record `Faults`.  What the block
  changes OUTSIDE the database (Ruby variables, processes) is the private part of the state: a
  rollback restores `db` and leaves `priv` as it is.

  Assumed of SQLite: a connection closed with an open transaction rolls it back.  Assumed of POSIX:
  closing the lock file releases the lock, also when `close` reports an error.
-/
import Mathlib.Data.Nat.SuccPred
import RubyQueue.JobQueue

namespace RubyQueue.Qdb

open RubyQueue.JobQueue

universe u v w

/-! ## One attempt -/

/-- The errors `transaction_wrap` tells apart. -/
inductive Err
  | standard
  | aborted
  | rollback
deriving DecidableEq, Repr

/-- Which calls of one attempt raise a StandardError, in the order the code reaches them. -/
structure Faults where
  /-- before the lock is held: `open`, `touch waiting`, `posixlock` -/
  lock : Bool := false
  /-- with the lock held: `Refresher::new` -/
  refresh : Bool := false
  /-- no schema, or `SQLite::Database::new` -/
  connect : Bool := false
  start : Bool := false
  commit : Bool := false
  close : Bool := false
  unlock : Bool := false
  closeFile : Bool := false
deriving DecidableEq, Repr

/-- A `QDB` object, the database it opens and everything else the process has. -/
structure State (δ : Type u) (π : Type v) where
  db : δ
  priv : π
  inTransaction : Bool := false
  /-- `@db` is not nil -/
  connected : Bool := false
  locked : Bool := false

abbrev Block (δ : Type u) (π : Type v) := State δ π → State δ π × Option Err

/-- The code of a transaction block: it works on the open database and on the private state, and
    may raise.  `β` is what the environment decides during one run of it. -/
abbrev Body (δ : Type u) (π : Type v) (β : Type w) := β → δ → π → (δ × π) × Option Err

variable {δ : Type u} {π : Type v} {β : Type w}

/-- `execute 'begin'; yield; execute 'commit'`. -/
def beginCommit (f : Faults) (body : Body δ π β) (b : β) : Block δ π := fun s =>
  if f.start then (s, some .standard)
  else
    match body b s.db s.priv with
    | ((_, p), some e) => ({ s with priv := p }, some e)
    | ((d, p), none) =>
      if f.commit then ({ s with priv := p }, some .standard)
      else ({ s with db := d, priv := p }, none)

/-- `QDB#connect`.  When `@db.close` raises, `@db = nil` is skipped. -/
def connect (f : Faults) (block : Block δ π) : Block δ π := fun s =>
  if f.connect then ({ s with connected := false }, some .standard)
  else
    let r := block { s with connected := true }
    if f.close then (r.1, some .standard) else ({ r.1 with connected := false }, r.2)

/-- `QDB#aquire_lock`, once the lock can be had. -/
def aquireLock (f : Faults) (block : Block δ π) : Block δ π := fun s =>
  if f.lock then (s, some .standard)
  else
    let r := if f.refresh then ({ s with locked := true }, some .standard)
      else block { s with locked := true }
    -- `ensure`: unlock
    let r := if f.unlock then (r.1, some .standard) else ({ r.1 with locked := false }, r.2)
    -- the end of `open … do |lf|`: whatever happened, the file is closed and the lock is gone
    ({ r.1 with locked := false }, if f.closeFile then some .standard else r.2)

/-- One attempt: its faults, and what the environment decides inside the block. -/
structure Attempt (β : Type w) where
  faults : Faults := {}
  script : β
deriving DecidableEq, Repr

/-- What `transaction_wrap` yields to. -/
def attempt (body : Body δ π β) (a : Attempt β) : Block δ π :=
  aquireLock a.faults (connect a.faults (beginCommit a.faults body a.script))

/-! ## The retrying wrappers -/

/-- Does `transaction_wrap` retry after this error, when it has seen `errors` before? -/
def retriesAfter (retries errors : Nat) : Err → Bool
  | .standard => decide (errors < retries)
  | .aborted => false
  | .rollback => false

/-- `QDB#transaction_wrap` after `errors` errors.  `none`: the attempts given are used up and it
    is still retrying. -/
def transactionWrap (retries : Nat) (body : Body δ π β) :
    List (Attempt β) → Nat → State δ π → Option (State δ π × Option Err)
  | [], _, _ => none
  | a :: as, errors, s =>
    match attempt body a s with
    | (s, none) => some (s, none)
    | (s, some e) =>
      if retriesAfter retries errors e then transactionWrap retries body as (errors + 1) s
      else some (s, some e)

/-- One run of the block of `lockd_recover_wrap`: did another process move the recovery marker
    meanwhile, and the attempts made. -/
structure Round (β : Type w) where
  advanced : Bool := false
  attempts : List (Attempt β)
deriving DecidableEq, Repr

/-- `QDB#lockd_recover_wrap`.  `try_again` is set by a moved marker, never reset, and read only
    when an error was raised. -/
def lockdRecoverWrap (retries : Nat) (body : Body δ π β) :
    List (Round β) → Bool → State δ π → Option (State δ π × Option Err)
  | [], _, _ => none
  | r :: rs, tryAgain, s =>
    match transactionWrap retries body r.attempts 0 s with
    | none => none
    | some (s, none) => some (s, none)
    | some (s, some e) =>
      if tryAgain || r.advanced then lockdRecoverWrap retries body rs true s
      else some (s, some e)

/-- `QDB#transaction` (not read_only). -/
def transaction (retries : Nat) (body : Body δ π β) (rounds : List (Round β)) (s : State δ π) :
    Option (State δ π × Option Err) :=
  if s.inTransaction then some (s, some .standard)
  else
    (lockdRecoverWrap retries body rounds false { s with inTransaction := true }).map fun r =>
      ({ r.1 with inTransaction := false }, r.2)

/-! ## What an attempt leaves behind -/

/-- The attempt gets as far as `connect`. -/
def Attempt.connects (a : Attempt β) : Bool := !a.faults.lock && !a.faults.refresh

/-- It opens the database. -/
def Attempt.opens (a : Attempt β) : Bool := a.connects && !a.faults.connect

/-- It runs the block. -/
def Attempt.runsBlock (a : Attempt β) : Bool := a.opens && !a.faults.start

/-- It commits, the block having ended with `e`. -/
def Attempt.commits (a : Attempt β) (e : Option Err) : Bool :=
  a.runsBlock && e.isNone && !a.faults.commit

/-- **An attempt keeps or replaces the database, never mixes**: the database is the block's if the
    attempt commits and the old one if it does not; the private changes of a block that ran stay in
    either case; and an attempt that returns has committed. -/
theorem attempt_spec (body : Body δ π β) (a : Attempt β) (s : State δ π) :
    (attempt body a s).1.db = (if a.commits (body a.script s.db s.priv).2
      then (body a.script s.db s.priv).1.1 else s.db) ∧
    (attempt body a s).1.priv
      = (if a.runsBlock then (body a.script s.db s.priv).1.2 else s.priv) ∧
    ((attempt body a s).2 = none → a.commits (body a.script s.db s.priv).2 = true) := by
  obtain ⟨⟨lock, refresh, conn, start, commit, close, unlock, closeFile⟩, b⟩ := a
  unfold attempt beginCommit connect aquireLock
  simp only [Attempt.commits, Attempt.runsBlock, Attempt.opens, Attempt.connects]
  -- one case for each place the attempt can stop
  cases lock with
  | true => simp
  | false =>
    cases refresh with
    | true => cases unlock <;> cases closeFile <;> simp
    | false =>
      cases conn with
      | true => cases unlock <;> cases closeFile <;> simp
      | false =>
        cases start with
        | true => cases close <;> cases unlock <;> cases closeFile <;> simp
        | false =>
          cases body b s.db s.priv with
          | mk dp e =>
            cases e with
            | some e => cases close <;> cases unlock <;> cases closeFile <;> simp
            | none =>
              cases commit <;> cases close <;> cases unlock <;> cases closeFile <;> simp

/-- So an attempt either commits what the block did, or leaves the database and, at most, what the
    block did to the private state. -/
theorem attempt_cases (body : Body δ π β) (a : Attempt β) (s : State δ π) :
    (a.commits (body a.script s.db s.priv).2 = true ∧ (body a.script s.db s.priv).2 = none ∧
      (attempt body a s).1.db = (body a.script s.db s.priv).1.1 ∧
      (attempt body a s).1.priv = (body a.script s.db s.priv).1.2) ∨
    (a.commits (body a.script s.db s.priv).2 = false ∧ (attempt body a s).1.db = s.db ∧
      ((attempt body a s).1.priv = s.priv ∨
       (attempt body a s).1.priv = (body a.script s.db s.priv).1.2)) := by
  obtain ⟨hdb, hpriv, -⟩ := attempt_spec body a s
  by_cases hc : a.commits (body a.script s.db s.priv).2 = true
  · left
    rw [if_pos hc] at hdb
    have hparts := hc
    simp only [Attempt.commits, Bool.and_eq_true, Option.isNone_iff_eq_none] at hparts
    rw [if_pos hparts.1.1] at hpriv
    exact ⟨hc, hparts.1.2, hdb, hpriv⟩
  · right
    rw [if_neg hc] at hdb
    refine ⟨by simpa using hc, hdb, ?_⟩
    split at hpriv
    · exact Or.inr hpriv
    · exact Or.inl hpriv

/-! ## A rule for the retries -/

/-- `Q` holds if it returned, and `I` if it raised. -/
def Ends (I Q : δ → π → Prop) (r : State δ π × Option Err) : Prop :=
  (r.2 = none → Q r.1.db r.1.priv) ∧ (r.2 ≠ none → I r.1.db r.1.priv)

theorem transactionWrap_rule {retries : Nat} {body : Body δ π β} {I Q : δ → π → Prop} :
    ∀ {as : List (Attempt β)} {errors : Nat} {s : State δ π} {r : State δ π × Option Err},
      (∀ a ∈ as, ∀ s : State δ π, I s.db s.priv → Ends I Q (attempt body a s)) → I s.db s.priv →
      transactionWrap retries body as errors s = some r → Ends I Q r := by
  intro as
  induction as with
  | nil =>
    intro errors s r _ _ h
    cases h
  | cons a as ih =>
    intro errors s r hstep hs h
    have hend := hstep a List.mem_cons_self s hs
    rw [transactionWrap] at h
    generalize attempt body a s = x at h hend
    obtain ⟨t, e⟩ := x
    cases e with
    | none =>
      obtain rfl := Option.some.inj h
      exact hend
    | some e =>
      have ht : I t.db t.priv := hend.2 (by simp)
      dsimp only at h
      split at h
      · exact ih (fun b hb => hstep b (List.mem_cons_of_mem a hb)) ht h
      · obtain rfl := Option.some.inj h
        exact hend

theorem lockdRecoverWrap_rule {retries : Nat} {body : Body δ π β} {I Q : δ → π → Prop} :
    ∀ {rounds : List (Round β)} {tryAgain : Bool} {s : State δ π} {r : State δ π × Option Err},
      (∀ round ∈ rounds, ∀ a ∈ round.attempts, ∀ s : State δ π, I s.db s.priv →
        Ends I Q (attempt body a s)) → I s.db s.priv →
      lockdRecoverWrap retries body rounds tryAgain s = some r → Ends I Q r := by
  intro rounds
  induction rounds with
  | nil =>
    intro tryAgain s r _ _ h
    cases h
  | cons round rounds ih =>
    intro tryAgain s r hstep hs h
    have hround := hstep round List.mem_cons_self
    rw [lockdRecoverWrap] at h
    split at h
    · cases h
    · rename_i t hw
      obtain rfl := Option.some.inj h
      exact transactionWrap_rule hround hs hw
    · rename_i t e hw
      have hend := transactionWrap_rule hround hs hw
      split at h
      · exact ih (fun b hb => hstep b (List.mem_cons_of_mem round hb)) (hend.2 (by simp)) h
      · obtain rfl := Option.some.inj h
        exact hend

/-- **The rule for `transaction`.**  If every attempt that starts in `I` ends in `Q` when it returns
    and in `I` when it raises, so does the transaction. -/
theorem transaction_rule {retries : Nat} {body : Body δ π β} {I Q : δ → π → Prop}
    {rounds : List (Round β)} {s : State δ π} {r : State δ π × Option Err}
    (hstep : ∀ round ∈ rounds, ∀ a ∈ round.attempts, ∀ s : State δ π, I s.db s.priv →
      Ends I Q (attempt body a s))
    (hin : s.inTransaction = false) (hs : I s.db s.priv)
    (h : transaction retries body rounds s = some r) : Ends I Q r := by
  simp only [transaction, hin] at h
  obtain ⟨x, hx, rfl⟩ := Option.map_eq_some_iff.mp h
  have hend : Ends I Q x :=
    lockdRecoverWrap_rule (s := { s with inTransaction := true }) hstep hs hx
  exact hend

/-! ## The attempts of a run -/

/-- The attempts `transaction_wrap` makes. -/
def wrapAttempts (retries : Nat) (body : Body δ π β) :
    List (Attempt β) → Nat → State δ π → List (Attempt β)
  | [], _, _ => []
  | a :: as, errors, s =>
    a :: match attempt body a s with
      | (_, none) => []
      | (s, some e) =>
        if retriesAfter retries errors e then wrapAttempts retries body as (errors + 1) s else []

/-- The attempts `lockd_recover_wrap` makes. -/
def roundAttempts (retries : Nat) (body : Body δ π β) :
    List (Round β) → Bool → State δ π → List (Attempt β)
  | [], _, _ => []
  | r :: rs, tryAgain, s =>
    wrapAttempts retries body r.attempts 0 s ++
      match transactionWrap retries body r.attempts 0 s with
      | some (s, some _) =>
        if tryAgain || r.advanced then roundAttempts retries body rs true s else []
      | _ => []

/-- The attempts `transaction` makes, in order. -/
def attemptsMade (retries : Nat) (body : Body δ π β) (rounds : List (Round β)) (s : State δ π) :
    List (Attempt β) :=
  if s.inTransaction then []
  else roundAttempts retries body rounds false { s with inTransaction := true }

theorem transactionWrap_foldl {retries : Nat} {body : Body δ π β} : ∀ {as : List (Attempt β)}
    {errors : Nat} {s : State δ π} {r : State δ π × Option Err},
    transactionWrap retries body as errors s = some r →
      r.1 = (wrapAttempts retries body as errors s).foldl (fun s a => (attempt body a s).1) s := by
  intro as
  induction as with
  | nil =>
    intro errors s r h
    cases h
  | cons a as ih =>
    intro errors s r h
    rw [transactionWrap] at h
    rw [wrapAttempts, List.foldl_cons]
    generalize attempt body a s = x at h ⊢
    obtain ⟨t, e⟩ := x
    cases e with
    | none =>
      obtain rfl := Option.some.inj h
      rfl
    | some e =>
      dsimp only at h ⊢
      split at h
      · rename_i hmore
        rw [if_pos hmore]
        exact ih h
      · rename_i hmore
        rw [if_neg hmore]
        obtain rfl := Option.some.inj h
        rfl

theorem lockdRecoverWrap_foldl {retries : Nat} {body : Body δ π β} : ∀ {rounds : List (Round β)}
    {tryAgain : Bool} {s : State δ π} {r : State δ π × Option Err},
    lockdRecoverWrap retries body rounds tryAgain s = some r →
      r.1 = (roundAttempts retries body rounds tryAgain s).foldl
        (fun s a => (attempt body a s).1) s := by
  intro rounds
  induction rounds with
  | nil =>
    intro tryAgain s r h
    cases h
  | cons round rounds ih =>
    intro tryAgain s r h
    rw [lockdRecoverWrap] at h
    rw [roundAttempts, List.foldl_append]
    cases hw : transactionWrap retries body round.attempts 0 s with
    | none => rw [hw] at h; cases h
    | some t =>
      rw [hw] at h
      rw [← transactionWrap_foldl hw]
      obtain ⟨t, e⟩ := t
      cases e with
      | none =>
        obtain rfl := Option.some.inj h
        rfl
      | some e =>
        dsimp only at h ⊢
        split at h
        · rename_i hagain
          rw [if_pos hagain]
          exact ih h
        · rename_i hagain
          rw [if_neg hagain]
          obtain rfl := Option.some.inj h
          rfl

/-- **A transaction comes to the attempts it makes**, one after the other. -/
theorem transaction_foldl {retries : Nat} {body : Body δ π β} {rounds : List (Round β)}
    {s : State δ π} {r : State δ π × Option Err} (h : transaction retries body rounds s = some r) :
    r.1 = { (attemptsMade retries body rounds s).foldl (fun s a => (attempt body a s).1)
      { s with inTransaction := true } with inTransaction := s.inTransaction } := by
  unfold transaction at h
  unfold attemptsMade
  split at h
  · rename_i hin
    obtain rfl := Option.some.inj h
    rw [if_pos hin]
    rfl
  · rename_i hin
    obtain ⟨x, hx, rfl⟩ := Option.map_eq_some_iff.mp h
    rw [if_neg hin, ← lockdRecoverWrap_foldl hx]
    simp [hin]

/-! ## Is the block applied exactly once? -/

/-- A block of SQL effects: on an attempt it raises `e`, or changes the database by `effect`. -/
def sqlBlock (effect : δ → δ) : Body δ Unit (Option Err) := fun e db u => ((effect db, u), e)

/-- The attempt commits a block of SQL effects. -/
def Attempt.committed (a : Attempt (Option Err)) : Bool := a.commits a.script

/-- Closing the database, unlocking or closing the lock file raises. -/
def Attempt.cleanupRaises (a : Attempt β) : Bool :=
  (a.opens && a.faults.close) || (!a.faults.lock && (a.faults.unlock || a.faults.closeFile))

/-- The error an attempt ends with. -/
def Attempt.raised (a : Attempt (Option Err)) : Option Err :=
  if a.cleanupRaises || !a.opens || a.faults.start then some .standard
  else if a.script.isSome then a.script
  else if a.faults.commit then some .standard
  else none

/-- `@db` after an attempt: is it left set? -/
def Attempt.leavesDb (a : Attempt β) (connected : Bool) : Bool :=
  if a.opens && a.faults.close then true else if a.connects then false else connected

/-- What an attempt leaves behind. -/
def afterAttempt (effect : δ → δ) (s : State δ Unit) (a : Attempt (Option Err)) : State δ Unit :=
  { s with
    db := if a.committed then effect s.db else s.db
    connected := a.leavesDb s.connected }

/-- **The spec of an attempt** of a block of SQL effects, from an unlocked state. -/
theorem attempt_sqlBlock (effect : δ → δ) (a : Attempt (Option Err)) (s : State δ Unit)
    (hs : s.locked = false) :
    attempt (sqlBlock effect) a s = (afterAttempt effect s a, a.raised) := by
  obtain ⟨db, u, i, c, l⟩ := s
  obtain rfl : l = false := hs
  obtain ⟨⟨lock, refresh, conn, start, commit, close, unlock, closeFile⟩, e⟩ := a
  -- one case for each place the attempt can stop; within it the cleanup faults
  cases lock with
  | true => rfl
  | false =>
    cases refresh with
    | true => cases unlock <;> cases closeFile <;> rfl
    | false =>
      cases conn with
      | true => cases unlock <;> cases closeFile <;> rfl
      | false =>
        cases start with
        | true => cases close <;> cases unlock <;> cases closeFile <;> rfl
        | false =>
          cases e with
          | some e => cases close <;> cases unlock <;> cases closeFile <;> rfl
          | none => cases commit <;> cases close <;> cases unlock <;> cases closeFile <;> rfl

/-- An attempt that returns has committed, and nothing raised after that. -/
theorem Attempt.raised_eq_none {a : Attempt (Option Err)} (h : a.raised = none) :
    a.committed = true ∧ a.cleanupRaises = false := by
  unfold Attempt.raised at h
  split at h
  · cases h
  rename_i h1
  split at h
  · rename_i h2
    rw [h] at h2
    cases h2
  rename_i h2
  split at h
  · cases h
  rename_i h3
  simp only [Bool.or_eq_true, Bool.not_eq_true', not_or, Bool.not_eq_false, Bool.not_eq_true]
    at h1 h3
  refine ⟨?_, h1.1.1⟩
  simp only [Attempt.committed, Attempt.commits, Attempt.runsBlock, h1.1.2, h1.2, h3]
  simpa using h2

/-! ## The attempts a pattern of faults leads to -/

/-- The attempts `transaction_wrap` makes, and the error it ends with. -/
def wrapMade (retries : Nat) :
    List (Attempt (Option Err)) → Nat → Option (List (Attempt (Option Err)) × Option Err)
  | [], _ => none
  | a :: as, errors =>
    match a.raised with
    | none => some ([a], none)
    | some e =>
      if retriesAfter retries errors e then
        (wrapMade retries as (errors + 1)).map fun m => (a :: m.1, m.2)
      else some ([a], some e)

/-- The attempts `transaction` makes, and the error it ends with; `none` while it is retrying. -/
def made (retries : Nat) :
    List (Round (Option Err)) → Bool → Option (List (Attempt (Option Err)) × Option Err)
  | [], _ => none
  | r :: rs, tryAgain =>
    match wrapMade retries r.attempts 0 with
    | none => none
    | some (m, none) => some (m, none)
    | some (m, some e) =>
      if tryAgain || r.advanced then (made retries rs true).map fun m' => (m ++ m'.1, m'.2)
      else some (m, some e)

/-- Over several attempts the effect is applied once for each that committed. -/
theorem foldl_afterAttempt (effect : δ → δ) : ∀ (as : List (Attempt (Option Err))) (s : State δ Unit),
    as.foldl (afterAttempt effect) s =
      { s with
        db := effect^[as.countP Attempt.committed] s.db
        connected := as.foldl (fun c a => a.leavesDb c) s.connected } := by
  intro as
  induction as with
  | nil => intro s; rfl
  | cons a as ih =>
    intro s
    rw [List.foldl_cons, ih, List.foldl_cons, List.countP_cons]
    unfold afterAttempt
    cases a.committed <;> simp [Function.iterate_succ_apply]

/-- `transaction_wrap` makes exactly the attempts of `wrapMade`.  Induction on the attempts. -/
theorem transactionWrap_eq (retries : Nat) (effect : δ → δ) :
    ∀ (as : List (Attempt (Option Err))) (errors : Nat) (s : State δ Unit), s.locked = false →
      transactionWrap retries (sqlBlock effect) as errors s
        = (wrapMade retries as errors).map fun m => (m.1.foldl (afterAttempt effect) s, m.2) := by
  intro as
  induction as with
  | nil => intro _ _ _; rfl
  | cons a as ih =>
    intro errors s hs
    rw [transactionWrap, wrapMade, attempt_sqlBlock effect a s hs]
    cases hr : a.raised with
    | none => rfl
    | some e =>
      by_cases hmore : retriesAfter retries errors e = true
      · simp only [hmore, if_true]
        rw [ih (errors + 1) (afterAttempt effect s a) hs, Option.map_map]
        rfl
      · simp only [hmore]
        rfl

/-- So does `lockd_recover_wrap`, over all its rounds. -/
theorem lockdRecoverWrap_eq (retries : Nat) (effect : δ → δ) :
    ∀ (rounds : List (Round (Option Err))) (tryAgain : Bool) (s : State δ Unit), s.locked = false →
      lockdRecoverWrap retries (sqlBlock effect) rounds tryAgain s
        = (made retries rounds tryAgain).map fun m =>
            (m.1.foldl (afterAttempt effect) s, m.2) := by
  intro rounds
  induction rounds with
  | nil => intro _ _ _; rfl
  | cons r rs ih =>
    intro tryAgain s hs
    rw [lockdRecoverWrap, made, transactionWrap_eq retries effect r.attempts 0 s hs]
    cases wrapMade retries r.attempts 0 with
    | none => rfl
    | some m =>
      obtain ⟨m, e⟩ := m
      cases e with
      | none => rfl
      | some e =>
        simp only [Option.map_some]
        by_cases hagain : (tryAgain || r.advanced) = true
        · have hlocked : (m.foldl (afterAttempt effect) s).locked = false := by
            rw [foldl_afterAttempt]
            exact hs
          simp only [hagain, if_true]
          rw [ih true _ hlocked, Option.map_map]
          simp only [Function.comp_def, List.foldl_append]
        · simp only [hagain]
          rfl

/-- In what `made` lists, the error at the end tells whether the last attempt returned; every
    attempt before it raised. -/
theorem wrapMade_raised {retries : Nat} : ∀ {as : List (Attempt (Option Err))} {errors : Nat}
    {m : List (Attempt (Option Err)) × Option Err}, wrapMade retries as errors = some m →
    ∃ front last, m.1 = front ++ [last] ∧ last.raised = m.2 ∧ ∀ a ∈ front, a.raised ≠ none := by
  intro as
  induction as with
  | nil => intro errors m h; cases h
  | cons a as ih =>
    intro errors m h
    rw [wrapMade] at h
    have single : ∀ e, a.raised = e → some ([a], e) = some m →
        ∃ front last, m.1 = front ++ [last] ∧ last.raised = m.2 ∧
          ∀ a ∈ front, a.raised ≠ none := by
      intro e he hm
      injection hm with hm
      subst hm
      exact ⟨[], a, rfl, he, by simp⟩
    split at h
    · rename_i hr
      exact single _ hr h
    rename_i e hr
    split at h
    · obtain ⟨m', hm', rfl⟩ := Option.map_eq_some_iff.mp h
      obtain ⟨front, last, hm, hlast, hfront⟩ := ih hm'
      refine ⟨a :: front, last, by simp [hm], hlast, ?_⟩
      intro b hb
      rcases List.mem_cons.mp hb with rfl | hb
      · simp [hr]
      · exact hfront b hb
    · exact single _ hr h

theorem made_raised {retries : Nat} : ∀ {rounds : List (Round (Option Err))} {tryAgain : Bool}
    {m : List (Attempt (Option Err)) × Option Err}, made retries rounds tryAgain = some m →
    ∃ front last, m.1 = front ++ [last] ∧ last.raised = m.2 ∧ ∀ a ∈ front, a.raised ≠ none := by
  intro rounds
  induction rounds with
  | nil => intro tryAgain m h; cases h
  | cons r rs ih =>
    intro tryAgain m h
    rw [made] at h
    split at h
    · cases h
    · rename_i m₁ hw
      injection h with h
      subst h
      exact wrapMade_raised hw
    · rename_i m₁ e hw
      obtain ⟨front₁, last₁, hm₁, hlast₁, hfront₁⟩ := wrapMade_raised hw
      split at h
      · obtain ⟨m', hm', rfl⟩ := Option.map_eq_some_iff.mp h
        obtain ⟨front, last, hm, hlast, hfront⟩ := ih hm'
        refine ⟨m₁ ++ front, last, by simp [hm], hlast, ?_⟩
        intro b hb
        simp only at hm₁ hlast₁
        rw [hm₁, List.append_assoc, List.mem_append] at hb
        rcases hb with hb | hb
        · exact hfront₁ b hb
        rcases List.mem_append.mp hb with hb | hb
        · rw [List.mem_singleton.mp hb, hlast₁]
          simp
        · exact hfront b hb
      · injection h with h
        subst h
        exact ⟨front₁, last₁, hm₁, hlast₁, hfront₁⟩

/-! ## Exactly once, and nothing left behind -/

/-- A `QDB` between two transactions. -/
def idle (db : δ) : State δ Unit := { db := db, priv := () }

/-- Returned: the effect applied once.  Raised: the database unchanged.  Either way nothing is left
    open. -/
structure ExactlyOnce (effect : δ → δ) (db : δ) (r : State δ Unit × Option Err) : Prop where
  returned : r.2 = none → r.1.db = effect db
  raised : r.2 ≠ none → r.1.db = db
  notInTransaction : r.1.inTransaction = false
  disconnected : r.1.connected = false
  unlocked : r.1.locked = false

/-- The attempts made leave the right traces: none fails in its cleanup after it has committed, and
    the last of them that got to the database closed it. -/
def CleanedUp (as : List (Attempt (Option Err))) : Prop :=
  (∀ a ∈ as, a.committed = true → a.cleanupRaises = false) ∧
  (∀ a, (as.filter Attempt.connects).getLast? = some a → a.opens = true → a.faults.close = false)

theorem foldl_leavesDb : ∀ as : List (Attempt (Option Err)),
    as.foldl (fun c a => a.leavesDb c) false = false ↔
      ∀ a, (as.filter Attempt.connects).getLast? = some a → a.opens = true →
        a.faults.close = false := by
  intro as
  induction as using List.reverseRecOn with
  | nil => simp
  | append_singleton as a ih =>
    rw [List.foldl_append, List.filter_append]
    by_cases hc : a.connects = true
    · -- this attempt decides
      have hlast : (as.filter Attempt.connects ++ [a].filter Attempt.connects).getLast? = some a := by
        simp [hc]
      rw [hlast]
      show a.leavesDb _ = false ↔ _
      unfold Attempt.leavesDb
      rw [hc]
      cases ho : a.opens <;> cases hcl : a.faults.close <;> simp [ho, hcl]
    · -- this attempt did not get to `connect`
      have ho : a.opens = false := by simp [Attempt.opens, hc]
      have hnil : [a].filter Attempt.connects = [] := by simp [hc]
      rw [hnil, List.append_nil, ← ih]
      show a.leavesDb _ = false ↔ _
      unfold Attempt.leavesDb
      simp [ho, hc]

/-- No attempt fails in its cleanup after committing exactly when the commits are one for a
    return and none for an error. -/
theorem countP_commits {front : List (Attempt (Option Err))} {last : Attempt (Option Err)}
    (hfront : ∀ a ∈ front, a.raised ≠ none) :
    (∀ a ∈ front ++ [last], a.committed = true → a.cleanupRaises = false) ↔
      (front ++ [last]).countP Attempt.committed = if last.raised = none then 1 else 0 := by
  -- an attempt that raised commits only together with a failing cleanup
  have key : ∀ a : Attempt (Option Err), a.raised ≠ none → a.committed = true →
      a.cleanupRaises = true := by
    intro a hr hc
    by_contra hn
    refine hr ?_
    simp only [Attempt.committed, Attempt.commits, Attempt.runsBlock, Bool.and_eq_true,
      Bool.not_eq_true'] at hc
    obtain ⟨⟨⟨ho, hs⟩, hb⟩, hm⟩ := hc
    have hb : a.script = none := by simpa using hb
    simp [Attempt.raised, hn, ho, hs, hb, hm]
  rw [List.countP_append, List.countP_singleton]
  constructor
  · intro h
    have h0 : front.countP Attempt.committed = 0 := by
      rw [List.countP_eq_zero]
      intro a ha hc
      have := key a (hfront a ha) hc
      rw [h a (List.mem_append_left _ ha) hc] at this
      cases this
    rw [h0]
    by_cases hl : last.raised = none
    · simp [hl, (Attempt.raised_eq_none hl).1]
    · have hc : last.committed = false := by
        rw [← Bool.not_eq_true]
        intro hc
        have := key last hl hc
        rw [h last (by simp) hc] at this
        cases this
      simp [hl, hc]
  · intro h
    have hsplit : front.countP Attempt.committed = 0 ∧
        (last.raised ≠ none → last.committed = false) := by
      by_cases hl : last.raised = none
      · rw [if_pos hl, (Attempt.raised_eq_none hl).1] at h
        exact ⟨by simpa using h, fun hn => absurd hl hn⟩
      · rw [if_neg hl] at h
        cases hc : last.committed <;> simp [hc] at h
        exact ⟨by simpa using h, fun _ => rfl⟩
    intro a ha hc
    rcases List.mem_append.mp ha with ha | ha
    · exact absurd hc (List.countP_eq_zero.mp hsplit.1 a ha)
    · obtain rfl := List.mem_singleton.mp ha
      by_cases hl : a.raised = none
      · exact (Attempt.raised_eq_none hl).2
      · rw [hsplit.2 hl] at hc
        cases hc

/-- **When a transaction is exactly-once.**  For every number of retries and every pattern of
    errors over all attempts: the transaction is exactly-once for every block of SQL effects on
    every database if and only if the attempts it makes are cleaned up. -/
theorem transaction_exactly_once_iff (retries : Nat) (rounds : List (Round (Option Err))) :
    (∀ (δ : Type) (effect : δ → δ) (db : δ) (r : State δ Unit × Option Err),
      transaction retries (sqlBlock effect) rounds (idle db) = some r → ExactlyOnce effect db r) ↔
    (∀ m, made retries rounds false = some m → CleanedUp m.1) := by
  have heq : ∀ (δ : Type) (effect : δ → δ) (db : δ),
      transaction retries (sqlBlock effect) rounds (idle db) =
        (made retries rounds false).map fun m =>
          ({ db := effect^[m.1.countP Attempt.committed] db, priv := (),
             connected := m.1.foldl (fun c a => a.leavesDb c) false }, m.2) := by
    intro δ effect db
    show Option.map _ (lockdRecoverWrap retries (sqlBlock effect) rounds false
      { db := db, priv := (), inTransaction := true }) = _
    rw [lockdRecoverWrap_eq retries effect rounds false _ rfl, Option.map_map]
    congr 1
    funext m
    simp only [Function.comp_def, foldl_afterAttempt]
  constructor
  · intro h m hm
    obtain ⟨front, last, hm1, hlast, hfront⟩ := made_raised hm
    -- the block `succ` on a counter shows how often it was applied
    have hsucc := h Nat Nat.succ 0 _ (by rw [heq, hm]; rfl)
    refine ⟨?_, (foldl_leavesDb m.1).mp hsucc.disconnected⟩
    rw [hm1, countP_commits hfront, ← hm1, hlast]
    have hcount : Nat.succ^[m.1.countP Attempt.committed] 0 = m.1.countP Attempt.committed := by
      rw [Nat.succ_iterate, Nat.zero_add]
    split
    · rename_i hnone
      exact hcount.symm.trans (hsucc.returned hnone)
    · rename_i hsome
      exact hcount.symm.trans (hsucc.raised hsome)
  · intro h δ effect db r hr
    rw [heq] at hr
    obtain ⟨m, hm, rfl⟩ := Option.map_eq_some_iff.mp hr
    obtain ⟨front, last, hm1, hlast, hfront⟩ := made_raised hm
    obtain ⟨hclean, hclose⟩ := h m hm
    rw [hm1, countP_commits hfront, ← hm1, hlast] at hclean
    refine ⟨?_, ?_, rfl, (foldl_leavesDb m.1).mpr hclose, rfl⟩
    · intro hnone
      show effect^[m.1.countP Attempt.committed] db = _
      rw [hclean, if_pos hnone]
      rfl
    · intro hsome
      show effect^[m.1.countP Attempt.committed] db = _
      rw [hclean, if_neg hsome]
      rfl

/-- The block of a `submit` of one job. -/
def submitMake (db : Jobs) : Jobs :=
  db.insert (submittedRow "2005-07-01" "node1" (db.maxJid + 1) { command := some "make" })

/-- The failing pattern: the first attempt commits and then cannot close the lock file; the second
    goes through.  The transaction returns, and the job is in the table twice. -/
theorem transaction_submits_twice :
    ∃ r, transaction 4 (sqlBlock submitMake)
        [{ attempts := [{ faults := { closeFile := true }, script := none }, { script := none }] }]
        (idle Jobs.empty) = some r ∧
      r.2 = none ∧ r.1.db.rows.map Row.jid = [1, 2] ∧ ¬ ExactlyOnce submitMake Jobs.empty r := by
  refine ⟨_, rfl, rfl, by decide, fun h => ?_⟩
  have hlen := congrArg (fun db : Jobs => db.rows.length) (h.returned rfl)
  exact absurd hlen (by decide)

end RubyQueue.Qdb
