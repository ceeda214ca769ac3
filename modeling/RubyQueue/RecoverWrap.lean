/-
  What does `QDB#lockd_recover_wrap` retry?

  It runs its block, looks whether the recovery marker has moved meanwhile without this process
  having recovered, and if so retries a block that raised.  But `try_again` lives outside the
  `begin … retry` and is never reset: after one recovery by another process EVERY later error is
  retried, for ever if it keeps occurring.  `retries_invalidated_iff` says for which attempts that
  makes no difference.

  A marker that is not there counts as dated when the attempt began, as in the code.
-/
import RubyQueue.Transaction

namespace RubyQueue.RecoverWrap

open RubyQueue.Qdb

/-! ## One attempt -/

/-- What a call of `lockd_recover` came to: another node was first, the recovery failed after it had
    touched the marker, or it was performed. -/
inductive Recovery
  | skipped
  | failed
  | performed
deriving DecidableEq, Repr

/-- One run of the block of `lockd_recover_wrap`: how it ended, the mtime of the marker before and
    after (`none`: `File::stat` raised), the time it began, and what each call of `lockd_recover` in
    it came to. -/
structure Attempt where
  error : Option Err
  before : Option Nat
  now : Nat
  after : Option Nat
  recoveries : List Recovery := []
deriving DecidableEq, Repr

def Attempt.raised (a : Attempt) : Bool := a.error.isSome

def Attempt.oldMtime (a : Attempt) : Nat := a.before.getD a.now
def Attempt.newMtime (a : Attempt) : Nat := a.after.getD a.oldMtime

/-- The mtime of the marker advanced. -/
def Attempt.advanced (a : Attempt) : Bool := decide (a.oldMtime < a.newMtime)

/-- `@lockd_recovered` at the end: the last recovery that was not skipped decides. -/
def Attempt.lockdRecovered (a : Attempt) : Bool :=
  a.recoveries.foldl (fun flag r =>
    match r with
    | .skipped => flag
    | .failed => false
    | .performed => true) false

/-- The `ensure` clause sets `try_again`. -/
def Attempt.setsTryAgain (a : Attempt) : Bool := a.advanced && !a.lockdRecovered

/-- Recovery has invalidated the attempt: the marker advanced and this process has performed no
    recovery. -/
def Attempt.invalidated (a : Attempt) : Bool := a.advanced && !a.recoveries.contains .performed

/-- Without a recovery of its own the flag is down. -/
theorem setsTryAgain_of_invalidated {a : Attempt} (h : a.invalidated = true) :
    a.setsTryAgain = true := by
  have hflag : ∀ rs : List Recovery, Recovery.performed ∉ rs →
      rs.foldl (fun flag r =>
        match r with
        | .skipped => flag
        | .failed => false
        | .performed => true) false = false := by
    intro rs
    induction rs with
    | nil => exact fun _ => rfl
    | cons r rs ih =>
      intro hno
      rw [List.mem_cons, not_or] at hno
      cases r with
      | skipped => exact ih hno.2
      | failed => exact ih hno.2
      | performed => exact absurd rfl hno.1
  unfold Attempt.invalidated at h
  rw [Bool.and_eq_true, Bool.not_eq_true', ← Bool.not_eq_true, List.contains_iff_mem] at h
  unfold Attempt.setsTryAgain Attempt.lockdRecovered
  rw [h.1, hflag a.recoveries h.2]
  rfl

/-! ## The loop -/

/-- After an attempt: `some`, it is retried, with `try_again` as it is then; `none`, the call is
    over. -/
def retry (tryAgain : Bool) (a : Attempt) : Option Bool :=
  if a.raised && (tryAgain || a.setsTryAgain) then some (tryAgain || a.setsTryAgain) else none

/-- `try_again` before the `n`-th attempt, if there is one. -/
def tryAgainBefore (as : Nat → Attempt) : Nat → Option Bool
  | 0 => some false
  | n + 1 => (tryAgainBefore as n).bind fun tryAgain => retry tryAgain (as n)

/-- The block is run an `n`-th time. -/
def Runs (as : Nat → Attempt) (n : Nat) : Prop := (tryAgainBefore as n).isSome = true

/-- **The wrapper around a transaction is this loop.**  A round of `Transaction` is an attempt whose
    marker moved or not, with no recovery by this process. -/
theorem lockdRecoverWrap_cons {δ : Type _} {π : Type _} {β : Type _} (retries : Nat)
    (body : Body δ π β) (r : Round β) (rs : List (Round β)) (tryAgain : Bool) (s : State δ π) :
    lockdRecoverWrap retries body (r :: rs) tryAgain s =
      (transactionWrap retries body r.attempts 0 s).bind fun t =>
        match retry tryAgain ⟨t.2, some 0, 0, some (if r.advanced then 1 else 0), []⟩ with
        | some tryAgain => lockdRecoverWrap retries body rs tryAgain t.1
        | none => some t := by
  rw [lockdRecoverWrap]
  cases transactionWrap retries body r.attempts 0 s with
  | none => rfl
  | some t =>
    obtain ⟨t, e⟩ := t
    cases e with
    | none => rfl
    | some e => cases tryAgain <;> cases hadv : r.advanced <;> rfl

/-! ## Which attempts are made -/

/-- `try_again` remembers every attempt that set it. -/
theorem tryAgainBefore_eq {as : Nat → Attempt} : ∀ {n : Nat} {tryAgain : Bool},
    tryAgainBefore as n = some tryAgain →
      (tryAgain = true ↔ ∃ k < n, (as k).setsTryAgain = true)
  | 0, tryAgain, h => by
    obtain rfl := Option.some.inj h
    simp
  | n + 1, tryAgain, h => by
    obtain ⟨t, ht, hretry⟩ := Option.bind_eq_some_iff.mp h
    have ih := tryAgainBefore_eq ht
    unfold retry at hretry
    split at hretry
    · obtain rfl := Option.some.inj hretry
      rw [Bool.or_eq_true, ih]
      constructor
      · rintro (⟨k, hk, hset⟩ | hset)
        · exact ⟨k, Nat.lt_succ_of_lt hk, hset⟩
        · exact ⟨n, Nat.lt_succ_self n, hset⟩
      · rintro ⟨k, hk, hset⟩
        rcases Nat.lt_succ_iff_lt_or_eq.mp hk with hk | rfl
        · exact Or.inl ⟨k, hk, hset⟩
        · exact Or.inr hset
    · cases hretry

/-- **One more attempt** is made after one that raised, when it or ANY earlier one set
    `try_again`. -/
theorem runs_succ_iff (as : Nat → Attempt) (n : Nat) :
    Runs as (n + 1) ↔
      Runs as n ∧ (as n).raised = true ∧ ∃ k ≤ n, (as k).setsTryAgain = true := by
  unfold Runs
  rw [tryAgainBefore]
  cases h : tryAgainBefore as n with
  | none => simp
  | some t =>
    have ht := tryAgainBefore_eq h
    have hany : (t || (as n).setsTryAgain) = true ↔ ∃ k ≤ n, (as k).setsTryAgain = true := by
      rw [Bool.or_eq_true, ht]
      constructor
      · rintro (⟨k, hk, hset⟩ | hset)
        · exact ⟨k, Nat.le_of_lt hk, hset⟩
        · exact ⟨n, Nat.le_refl n, hset⟩
      · rintro ⟨k, hk, hset⟩
        rcases Nat.lt_or_eq_of_le hk with hk | rfl
        · exact Or.inl ⟨k, hk, hset⟩
        · exact Or.inr hset
    rw [Option.bind_some, ← hany, ← Bool.and_eq_true]
    unfold retry
    split
    · rename_i hagain
      simp [hagain]
    · rename_i hagain
      simp [hagain]

/-- So once the first attempt has set it, the block runs until it returns. -/
theorem runs_iff (as : Nat → Attempt) (n : Nat) :
    Runs as n ↔ (∀ i < n, (as i).raised = true) ∧ (0 < n → (as 0).setsTryAgain = true) := by
  induction n with
  | zero => exact ⟨fun _ => ⟨fun i h => absurd h (Nat.not_lt_zero i), fun h => absurd h (by decide)⟩,
      fun _ => rfl⟩
  | succ n ih =>
    rw [runs_succ_iff, ih]
    constructor
    · rintro ⟨⟨hall, hfirst⟩, hraised, k, hk, hset⟩
      refine ⟨fun i hi => ?_, fun _ => ?_⟩
      · rcases Nat.lt_succ_iff_lt_or_eq.mp hi with hi | rfl
        · exact hall i hi
        · exact hraised
      · rcases Nat.eq_zero_or_pos n with rfl | hn
        · rwa [Nat.le_zero.mp hk] at hset
        · exact hfirst hn
    · rintro ⟨hall, hfirst⟩
      have hset := hfirst (Nat.succ_pos n)
      exact ⟨⟨fun i hi => hall i (Nat.lt_succ_of_lt hi), fun _ => hset⟩,
        hall n (Nat.lt_succ_self n), 0, Nat.zero_le n, hset⟩

/-! ## What was meant -/

/-- The block is run again exactly after an attempt that raised and was invalidated; and errors that
    go on with no further invalidation end the call. -/
def RetriesInvalidated (as : Nat → Attempt) : Prop :=
  (∀ n, Runs as n → (Runs as (n + 1) ↔ (as n).raised = true ∧ (as n).invalidated = true)) ∧
  ((∀ n, (as n).raised = true) → (∃ k, ∀ n > k, (as n).invalidated = false) →
    ∃ n, Runs as n ∧ ¬ Runs as (n + 1))

/-- **When only what recovery invalidated is retried**: when the first attempt does not set
    `try_again`, or each attempt up to the first that returns was invalidated itself. -/
theorem retries_invalidated_iff (as : Nat → Attempt) :
    RetriesInvalidated as ↔
      ((as 0).setsTryAgain = true → ∀ n, (∀ i ≤ n, (as i).raised = true) →
        (as n).invalidated = true) := by
  constructor
  · rintro ⟨hretry, -⟩ hset n hraised
    have hruns : Runs as n :=
      (runs_iff as n).mpr ⟨fun i hi => hraised i (Nat.le_of_lt hi), fun _ => hset⟩
    have hagain : Runs as (n + 1) :=
      (runs_succ_iff as n).mpr ⟨hruns, hraised n (Nat.le_refl n), 0, Nat.zero_le n, hset⟩
    exact ((hretry n hruns).mp hagain).2
  · intro hcond
    have hretry : ∀ n, Runs as n →
        (Runs as (n + 1) ↔ (as n).raised = true ∧ (as n).invalidated = true) := by
      intro n hruns
      constructor
      · intro hagain
        obtain ⟨hall, hset⟩ := (runs_iff as (n + 1)).mp hagain
        exact ⟨hall n (Nat.lt_succ_self n), hcond (hset (Nat.succ_pos n)) n
          fun i hi => hall i (Nat.lt_succ_of_le hi)⟩
      · rintro ⟨hraised, hinv⟩
        exact (runs_succ_iff as n).mpr
          ⟨hruns, hraised, n, Nat.le_refl n, setsTryAgain_of_invalidated hinv⟩
    refine ⟨hretry, fun hraised hlast => ?_⟩
    obtain ⟨k, hk⟩ := hlast
    by_contra hno
    -- then the block is run again and again, also after the last invalidation
    have hforever : ∀ n, Runs as n := by
      intro n
      induction n with
      | zero => rfl
      | succ n ih =>
        by_contra hstop
        exact hno ⟨n, ih, hstop⟩
    have hinv := ((hretry (k + 1) (hforever (k + 1))).mp (hforever (k + 2))).2
    rw [hk (k + 1) (Nat.lt_succ_self k)] at hinv
    cases hinv

/-- Another node recovers during the first attempt; the marker stays where it is after that, and
    every attempt raises. -/
def oneRecovery : Nat → Attempt
  | 0 => ⟨some .standard, some 100, 200, some 300, []⟩
  | n + 1 => ⟨some .standard, some 300, 400 + n, some 300, []⟩

/-- The error is never raised to the caller. -/
theorem one_recovery_retries_forever :
    (∀ n, Runs oneRecovery n) ∧ ¬ RetriesInvalidated oneRecovery := by
  have hraised : ∀ n, (oneRecovery n).raised = true := fun n => by cases n <;> rfl
  have hforever : ∀ n, Runs oneRecovery n := fun n =>
    (runs_iff oneRecovery n).mpr ⟨fun i _ => hraised i, fun _ => rfl⟩
  refine ⟨hforever, fun h => ?_⟩
  obtain ⟨n, -, hstop⟩ := h.2 hraised ⟨0, fun n hn => by
    obtain ⟨m, rfl⟩ : ∃ m, n = m + 1 := ⟨n - 1, by omega⟩
    exact Bool.and_eq_false_iff.mpr (Or.inl (decide_eq_false (Nat.lt_irrefl 300)))⟩
  exact hstop (hforever (n + 1))

end RubyQueue.RecoverWrap
