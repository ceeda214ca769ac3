/-
  What does `JobQueue#snapshot` return, and after how many copies?

  `Snapshot` follows the pages of one copy; here a copy is what its checks say of it, and the flow of
  the result is followed: through the lambda `take_snapshot`, the bounded loop and the last resort
  under `write_lock`.

  * The new object is made with the option hash of the old one.  `JobQueue.create` leaves its `QDB` in
    that hash, so the snapshot of a queue obtained so goes on working on the ORIGINAL db.
  * A copy that fails its check is mended, and then `take_snapshot` is worth the result of a check —
    where `=~` found its match — and not a queue.
  * `write_lock` runs its block again when it raised and another node has recovered meanwhile.

  `snapshot_result_iff` has the exact condition.
-/
import RubyQueue.Base.Raise

namespace RubyQueue.SnapshotResult

/-! ## Queues -/

/-- `File::join path, 'db'`. -/
def joinDb (path : String) : String :=
  if path.toList.getLast? = some '/' then path ++ "db" else path ++ "/db"

/-- A `JobQueue`: its path, and the db of the `QDB` in its option hash, if there is one. -/
structure JobQueue where
  path : String
  opts : Option String := none
deriving DecidableEq, Repr

/-- The db its own `QDB` opens. -/
def JobQueue.qdb (q : JobQueue) : String := q.opts.getD (joinDb q.path)

/-- `JobQueue.create`: `opts['qdb'] = qdb`. -/
def JobQueue.create (path : String) : JobQueue := ⟨path, some (joinDb path)⟩

/-! ## `take_snapshot` -/

/-- One copy and its checks: whether a file operation or `klass::new` raises, what the integrity
    check of the copy says (`none`: it raises), what the checks of the original say that are made when
    it says no, and what `ss.recover!` comes to. -/
structure Copy where
  raises : Bool := false
  check : Option Bool
  own : List Bool := []
  recovery : Option Bool := none
deriving DecidableEq, Repr

/-- What the lambda is worth: a queue, the place of a match, or nil. -/
inductive Value
  | queue (ss : JobQueue)
  | index
  | nil
deriving DecidableEq, Repr

/-- An integrity check: of which db, and what it said. -/
abbrev Check := String × Bool

/-- `take_snapshot`: the checks made, and its value unless it raises. -/
def takeSnapshot (q : JobQueue) (qtmp : String) (c : Copy) : List Check × Option Value :=
  if c.raises then ([], none)
  else
    let ss : JobQueue := ⟨qtmp, q.opts⟩
    match c.check with
    | none => ([], none)
    | some true => ([(ss.qdb, true)], some (.queue ss))
    | some false =>
      -- `begin; recover! unless integrity_check; rescue; nil; end`
      let log := (ss.qdb, false) :: c.own.map fun ok => (q.qdb, ok)
      match c.recovery with
      | none => (log, none)
      | some true => (log ++ [(ss.qdb, true)], some .index)
      | some false => (log ++ [(ss.qdb, false)], some .nil)

/-- What can come of a copy. -/
inductive Kind
  | raised
  | clean
  | mended
  | lost
deriving DecidableEq, Repr

def Copy.kind (c : Copy) : Kind :=
  if c.raises then .raised
  else
    match c.check, c.recovery with
    | none, _ => .raised
    | some true, _ => .clean
    | some false, none => .raised
    | some false, some true => .mended
    | some false, some false => .lost

/-! ## `snapshot` -/

/-- How the call ends. -/
inductive Ended
  | returned (v : Value)
  | raised
deriving DecidableEq, Repr

/-- The copies made, the checks made, and how it ended, if it did. -/
structure Outcome where
  copies : Nat
  checks : List Check
  ended : Option Ended
deriving DecidableEq, Repr

/-- One part of the call after another. -/
def Outcome.followedBy (o o' : Outcome) : Outcome :=
  ⟨o.copies + o'.copies, o.checks ++ o'.checks, o'.ended⟩

/-- The loop, with `n` rounds to go. -/
def tryLoop (q : JobQueue) (qtmp : String) (script : Nat → Copy) : Nat → Nat → Outcome
  | 0, _ => ⟨0, [], none⟩
  | n + 1, loopno =>
    match takeSnapshot q qtmp (script loopno) with
    | (log, none) => ⟨1, log, some .raised⟩
    | (log, some .nil) => Outcome.followedBy ⟨1, log, none⟩ (tryLoop q qtmp script n (loopno + 1))
    | (log, some v) => ⟨1, log, some (.returned v)⟩

/-- One attempt of `write_lock` at its block: the copy it makes, if it gets the lock; whether giving
    the lock up raises; and whether `lockd_recover_wrap` sets `try_again` after it. -/
structure LockTry where
  copy : Option Copy
  leaveRaises : Bool := false
  moved : Bool := false
deriving DecidableEq, Repr

/-- The attempt raises: for want of the lock, in the copy, for a copy that is nil, or on leaving. -/
def LockTry.raised (l : LockTry) : Bool :=
  match l.copy with
  | none => true
  | some c => l.leaveRaises || c.kind == .raised || c.kind == .lost

/-- The block of the last resort, once. -/
def lockedCopy (q : JobQueue) (qtmp : String) (l : LockTry) : Outcome :=
  match l.copy with
  | none => ⟨0, [], some .raised⟩
  | some c =>
    match takeSnapshot q qtmp c with
    | (log, none) => ⟨1, log, some .raised⟩
    | (log, some .nil) => ⟨1, log, some .raised⟩
    | (log, some v) => ⟨1, log, some (if l.leaveRaises then .raised else .returned v)⟩

/-- `@qdb.write_lock do … end`. -/
def lastResort (q : JobQueue) (qtmp : String) : Bool → List LockTry → Outcome
  | _, [] => ⟨0, [], none⟩
  | tryAgain, l :: ls =>
    if l.raised && (tryAgain || l.moved) then
      (lockedCopy q qtmp l).followedBy (lastResort q qtmp (tryAgain || l.moved) ls)
    else lockedCopy q qtmp l

/-- `JobQueue#snapshot`. -/
def snapshot (q : JobQueue) (qtmp : String) (retries : Nat) (script : Nat → Copy)
    (locks : List LockTry) : Outcome :=
  let o := tryLoop q qtmp script retries 0
  if o.ended.isSome then o else o.followedBy (lastResort q qtmp false locks)

/-! ## What was meant -/

/-- The last thing a check said of a db. -/
def lastCheck (db : String) (checks : List Check) : Option Bool :=
  ((checks.filter fun x => x.1 == db).getLast?).map Prod.snd

/-- A queue that is returned is the copy: its path, its db, and its last check. -/
def Returns (qtmp : String) (checks : List Check) (ended : Option Ended) : Prop :=
  ∀ v, ended = some (.returned v) → ∃ ss, v = .queue ss ∧ ss.path = qtmp ∧ ss.qdb = joinDb qtmp ∧
    lastCheck ss.qdb checks = some true

/-- What `snapshot` is for. -/
def Faithful (qtmp : String) (retries : Nat) (o : Outcome) : Prop :=
  Returns qtmp o.checks o.ended ∧ o.copies ≤ retries + 1

/-- A queue made with the options of `q` works on the db in its own directory. -/
def Own (q : JobQueue) (qtmp : String) : Prop := q.opts = none ∨ q.opts = some (joinDb qtmp)

/-- The attempts `write_lock` makes at its block. -/
def attemptsMade : Bool → List LockTry → List LockTry
  | _, [] => []
  | tryAgain, l :: ls =>
    l :: if l.raised && (tryAgain || l.moved) then attemptsMade (tryAgain || l.moved) ls else []

/-! ## What a copy is worth -/

section Call

variable {q : JobQueue} {qtmp : String}

theorem qdb_eq_iff : (⟨qtmp, q.opts⟩ : JobQueue).qdb = joinDb qtmp ↔ Own q qtmp := by
  unfold JobQueue.qdb Own
  cases q.opts with
  | none => simp
  | some db => simp

theorem lastCheck_concat (db : String) (checks : List Check) (ok : Bool) :
    lastCheck db (checks ++ [(db, ok)]) = some ok := by
  simp [lastCheck]

/-- What the lambda is worth depends on the kind of the copy alone. -/
theorem takeSnapshot_value (c : Copy) :
    (takeSnapshot q qtmp c).2 =
      match c.kind with
      | .raised => none
      | .clean => some (.queue ⟨qtmp, q.opts⟩)
      | .mended => some .index
      | .lost => some .nil := by
  obtain ⟨raises, check, own, recovery⟩ := c
  unfold takeSnapshot Copy.kind
  cases raises with
  | true => rfl
  | false =>
    cases check with
    | none => rfl
    | some ok =>
      cases ok with
      | true => rfl
      | false =>
        cases recovery with
        | none => rfl
        | some ok => cases ok <;> rfl

theorem takeSnapshot_clean {c : Copy} (h : c.kind = .clean) :
    takeSnapshot q qtmp c
      = ([((⟨qtmp, q.opts⟩ : JobQueue).qdb, true)], some (.queue ⟨qtmp, q.opts⟩)) := by
  obtain ⟨raises, check, own, recovery⟩ := c
  unfold Copy.kind at h
  unfold takeSnapshot
  cases raises with
  | true => cases h
  | false =>
    cases check with
    | none => cases h
    | some ok =>
      cases ok with
      | true => rfl
      | false =>
        cases recovery with
        | none => cases h
        | some ok => cases ok <;> cases h

/-- **A copy that decides**: what is returned for it is the copy when it was clean and the new queue
    works on its own db, and never when it had to be mended. -/
theorem returns_iff {c : Copy} {v : Value} (hv : (takeSnapshot q qtmp c).2 = some v)
    (hlost : c.kind ≠ .lost) (checks : List Check) :
    Returns qtmp (checks ++ (takeSnapshot q qtmp c).1) (some (.returned v)) ↔
      c.kind = .clean ∧ Own q qtmp := by
  have hvalue := @takeSnapshot_value q qtmp c
  rw [hv] at hvalue
  cases hk : c.kind with
  | raised =>
    rw [hk] at hvalue
    cases hvalue
  | lost => exact absurd hk hlost
  | mended =>
    rw [hk] at hvalue
    obtain rfl := Option.some.inj hvalue
    constructor
    · intro h
      obtain ⟨ss, hss, -⟩ := h _ rfl
      cases hss
    · rintro ⟨h, -⟩
      cases h
  | clean =>
    rw [hk] at hvalue
    obtain rfl := Option.some.inj hvalue
    rw [takeSnapshot_clean hk, ← qdb_eq_iff]
    constructor
    · intro h
      obtain ⟨ss, hss, -, hdb, -⟩ := h _ rfl
      obtain rfl := Value.queue.inj hss
      exact ⟨rfl, hdb⟩
    · rintro ⟨-, hdb⟩ v hv
      obtain rfl := Ended.returned.inj (Option.some.inj hv)
      exact ⟨_, rfl, rfl, hdb, lastCheck_concat _ checks true⟩

theorem returns_raised (checks : List Check) : Returns qtmp checks (some .raised) := by
  intro v h
  cases h

/-! ## The loop -/

/-- The rounds of the loop, up to the first copy that is not lost. -/
theorem tryLoop_spec (script : Nat → Copy) : ∀ (n loopno : Nat) (before : List Check),
    (((List.range' loopno n).map script).find? (fun c => c.kind != .lost) = none →
      (tryLoop q qtmp script n loopno).ended = none ∧
      (tryLoop q qtmp script n loopno).copies = n) ∧
    (∀ c, ((List.range' loopno n).map script).find? (fun c => c.kind != .lost) = some c →
      (tryLoop q qtmp script n loopno).ended.isSome = true ∧
      (tryLoop q qtmp script n loopno).copies ≤ n ∧
      (Returns qtmp (before ++ (tryLoop q qtmp script n loopno).checks)
          (tryLoop q qtmp script n loopno).ended ↔
        c.kind = .raised ∨ (c.kind = .clean ∧ Own q qtmp)))
  | 0, loopno, before => ⟨fun _ => ⟨rfl, rfl⟩, fun c h => by cases h⟩
  | n + 1, loopno, before => by
    have hvalue := @takeSnapshot_value q qtmp (script loopno)
    have hreturns := @returns_iff q qtmp (script loopno)
    rw [List.range'_succ, List.map_cons, List.find?_cons, tryLoop]
    generalize takeSnapshot q qtmp (script loopno) = r at hvalue hreturns
    obtain ⟨log, value⟩ := r
    dsimp only at hvalue hreturns
    cases hk : (script loopno).kind with
    | lost =>
      -- the loop goes on
      rw [hk] at hvalue
      subst hvalue
      obtain ⟨hnone, hsome⟩ := tryLoop_spec script n (loopno + 1) (before ++ log)
      refine ⟨fun h => ⟨(hnone h).1, ?_⟩, fun c h => ?_⟩
      · show 1 + (tryLoop q qtmp script n (loopno + 1)).copies = n + 1
        rw [(hnone h).2, Nat.add_comm]
      · obtain ⟨hended, hle, hiff⟩ := hsome c h
        rw [List.append_assoc] at hiff
        refine ⟨hended, ?_, hiff⟩
        show 1 + (tryLoop q qtmp script n (loopno + 1)).copies ≤ n + 1
        omega
    | raised =>
      rw [hk] at hvalue
      subst hvalue
      refine ⟨fun h => ?_, fun c h => ?_⟩
      · cases h
      obtain rfl := Option.some.inj h
      exact ⟨rfl, Nat.succ_le_succ (Nat.zero_le n),
        fun _ => Or.inl hk, fun _ => returns_raised _⟩
    | clean =>
      rw [hk] at hvalue
      subst hvalue
      refine ⟨fun h => ?_, fun c h => ?_⟩
      · cases h
      obtain rfl := Option.some.inj h
      refine ⟨rfl, Nat.succ_le_succ (Nat.zero_le n), (hreturns rfl (by rw [hk]; decide) before).trans ?_⟩
      rw [hk]
      simp
    | mended =>
      rw [hk] at hvalue
      subst hvalue
      refine ⟨fun h => ?_, fun c h => ?_⟩
      · cases h
      obtain rfl := Option.some.inj h
      refine ⟨rfl, Nat.succ_le_succ (Nat.zero_le n), (hreturns rfl (by rw [hk]; decide) before).trans ?_⟩
      rw [hk]
      simp

/-! ## The last resort -/

/-- The block, once: a copy if the lock is got, and a result if nothing raises. -/
theorem lockedCopy_spec (l : LockTry) (before : List Check) :
    (lockedCopy q qtmp l).copies = (if l.copy.isSome then 1 else 0) ∧
    (l.raised = true → (lockedCopy q qtmp l).ended = some .raised) ∧
    (Returns qtmp (before ++ (lockedCopy q qtmp l).checks) (lockedCopy q qtmp l).ended ↔
      (l.raised = false → ∀ c ∈ l.copy, c.kind = .clean ∧ Own q qtmp)) := by
  obtain ⟨copy, leaveRaises, moved⟩ := l
  cases copy with
  | none => exact ⟨rfl, fun _ => rfl, fun _ h => Bool.noConfusion h, fun _ => returns_raised _⟩
  | some c =>
    have hvalue := @takeSnapshot_value q qtmp c
    have hreturns := @returns_iff q qtmp c
    unfold lockedCopy LockTry.raised
    dsimp only
    generalize takeSnapshot q qtmp c = r at hvalue hreturns
    obtain ⟨log, value⟩ := r
    dsimp only at hvalue hreturns
    cases hk : c.kind with
    | raised =>
      rw [hk] at hvalue
      subst hvalue
      exact ⟨rfl, fun _ => rfl, fun _ h => by simp at h, fun _ => returns_raised _⟩
    | lost =>
      rw [hk] at hvalue
      subst hvalue
      exact ⟨rfl, fun _ => rfl, fun _ h => by simp at h, fun _ => returns_raised _⟩
    | clean =>
      rw [hk] at hvalue hreturns
      subst hvalue
      cases leaveRaises with
      | true => exact ⟨rfl, fun _ => rfl, fun _ h => by simp at h, fun _ => returns_raised _⟩
      | false =>
        refine ⟨rfl, fun h => absurd h (by simp), (hreturns rfl (by simp) before).trans ?_⟩
        simp [hk]
    | mended =>
      rw [hk] at hvalue hreturns
      subst hvalue
      cases leaveRaises with
      | true => exact ⟨rfl, fun _ => rfl, fun _ h => by simp at h, fun _ => returns_raised _⟩
      | false =>
        refine ⟨rfl, fun h => absurd h (by simp), (hreturns rfl (by simp) before).trans ?_⟩
        simp [hk]

/-- **The attempts of `write_lock`**, by induction on them: their copies, and what is returned. -/
theorem lastResort_spec : ∀ (tryAgain : Bool) (ls : List LockTry) (before : List Check),
    (lastResort q qtmp tryAgain ls).copies
      = (attemptsMade tryAgain ls).countP (fun l => l.copy.isSome) ∧
    (Returns qtmp (before ++ (lastResort q qtmp tryAgain ls).checks)
        (lastResort q qtmp tryAgain ls).ended ↔
      ∀ l ∈ attemptsMade tryAgain ls, l.raised = false → ∀ c ∈ l.copy, c.kind = .clean ∧ Own q qtmp)
  | _, [], _ => by
    refine ⟨rfl, fun _ l hl => absurd hl List.not_mem_nil, fun _ v h => ?_⟩
    cases h
  | tryAgain, l :: ls, before => by
    obtain ⟨hcopies, hraised, hreturns⟩ := @lockedCopy_spec q qtmp l before
    rw [lastResort, attemptsMade]
    split
    · rename_i hagain
      obtain ⟨hcopies', hreturns'⟩ :=
        lastResort_spec (tryAgain || l.moved) ls (before ++ (lockedCopy q qtmp l).checks)
      rw [List.append_assoc] at hreturns'
      have hl : l.raised = true := (Bool.and_eq_true_iff.mp hagain).1
      refine ⟨?_, hreturns'.trans ?_⟩
      · show (lockedCopy q qtmp l).copies + (lastResort q qtmp (tryAgain || l.moved) ls).copies = _
        rw [List.countP_cons, hcopies, hcopies', Nat.add_comm]
      · rw [List.forall_mem_cons, hl]
        simp
    · refine ⟨?_, hreturns.trans ?_⟩
      · rw [List.countP_cons, hcopies, List.countP_nil, Nat.zero_add]
      · rw [List.forall_mem_cons]
        simp

end Call

/-- **When a snapshot is what it is taken for.**  For every queue, target, number of retries, and
    whatever comes of the copies and of the lock: unless it raises, `snapshot` returns the copy,
    working on its own db and found sound, after at most `retries + 1` copies, exactly when

    * the first copy of the loop that is not lost raises; or is clean, and the options of the old queue
      hold no `QDB` but that of the copy;
    * and, if all are lost, of the attempts under the lock at most one gets to copy, and if one of them
      does not raise, its copy is clean, with the same options. -/
theorem snapshot_result_iff (q : JobQueue) (qtmp : String) (retries : Nat) (script : Nat → Copy)
    (locks : List LockTry) :
    Faithful qtmp retries (snapshot q qtmp retries script locks) ↔
      (∀ c, ((List.range retries).map script).find? (fun c => c.kind != .lost) = some c →
        c.kind = .raised ∨ (c.kind = .clean ∧ Own q qtmp)) ∧
      (((List.range retries).map script).find? (fun c => c.kind != .lost) = none →
        (attemptsMade false locks).countP (fun l => l.copy.isSome) ≤ 1 ∧
        ∀ l ∈ attemptsMade false locks, l.raised = false →
          ∀ c ∈ l.copy, c.kind = .clean ∧ Own q qtmp) := by
  obtain ⟨hnone, hsome⟩ := @tryLoop_spec q qtmp script retries 0 []
  rw [← List.range_eq_range'] at hnone hsome
  unfold Faithful snapshot
  dsimp only
  generalize tryLoop q qtmp script retries 0 = o at hnone hsome
  cases hfind : ((List.range retries).map script).find? (fun c => c.kind != .lost) with
  | some c =>
    obtain ⟨hended, hle, hiff⟩ := hsome c hfind
    rw [List.nil_append] at hiff
    rw [if_pos hended, hiff]
    constructor
    · rintro ⟨h, -⟩
      refine ⟨fun c' hc' => ?_, fun h => by cases h⟩
      obtain rfl := Option.some.inj hc'
      exact h
    · rintro ⟨h, -⟩
      exact ⟨h c rfl, Nat.le_succ_of_le hle⟩
  | none =>
    obtain ⟨hended, hcopies⟩ := hnone hfind
    obtain ⟨hlocked, hreturns⟩ := @lastResort_spec q qtmp false locks o.checks
    rw [if_neg (by simp [hended])]
    show Returns qtmp (o.checks ++ _) (lastResort q qtmp false locks).ended ∧
      o.copies + _ ≤ retries + 1 ↔ _
    rw [hreturns, hlocked, hcopies]
    constructor
    · rintro ⟨h, hle⟩
      refine ⟨fun c hc => ?_, fun _ => ⟨by omega, h⟩⟩
      cases hc
    · rintro ⟨-, h⟩
      obtain ⟨hle, h⟩ := h rfl
      exact ⟨h, by omega⟩

/-- A queue made by `create`: its snapshot works on the db of the queue. -/
theorem created_queue_keeps_db :
    (snapshot (JobQueue.create "q") "q.snapshot" 16 (fun _ => { check := some true }) []).ended
      = some (.returned (.queue ⟨"q.snapshot", some "q/db"⟩)) ∧
    (⟨"q.snapshot", some "q/db"⟩ : JobQueue).qdb = "q/db" ∧
    ¬ Faithful "q.snapshot" 16
      (snapshot (JobQueue.create "q") "q.snapshot" 16 (fun _ => { check := some true }) []) := by
  refine ⟨rfl, rfl, fun h => ?_⟩
  obtain ⟨ss, hss, -, hdb, -⟩ := h.1 _ rfl
  obtain rfl := Value.queue.inj hss
  exact absurd hdb (by decide)

end RubyQueue.SnapshotResult
