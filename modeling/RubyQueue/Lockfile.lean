/-
  Does `Lockfile#lock` keep two processes out of the same block?

  A process makes a temporary file of its own, writes its lock id into it and links it to the path of
  the lock; the link is made for one process only.  While it is in its block, a refresher touches the
  lock.  Who does not get the link polls, and then looks at the age of the lock: `uncache` first, which
  stats the file and writes the mtime it has read BACK to the path; then a stat for the age; and when
  the lock is older than `max_age`, an unlink of the path.  Nothing ties these operations together.

  * `exclusive_of_spared`   — as long as no thief removes the lock of a process in its block, one
                              process is in its block, whatever else happens;
  * `exclusive_without_age` — so with `max_age` nil, as `Lockfile::create` has it, always;
  * `exclusive_of_leased`   — and with `max_age`, as long as each lock is renewed in time and nobody
                              touches or removes the lock between the two halves of an `uncache`, or
                              between a verdict and the unlink it leads to;
  * `published`             — where lock ids are in use, a lock is never seen without its lock id;
  * `temporary_is_removed`  — a temporary file stays behind only where its process was killed;
  * `takes_the_lock_alone`  — a process that is left alone gets a lock that is free or stale.

  Each part of the condition on the leases is needed (`late_renewal`, `old_mtime_comes_back`,
  `second_thief`).  `timeout` is not modelled: it is nil by default.  There is one clock, that of
  the file server.  A `sweep`, the stat of the file a process has made and the `link`, `chmod` and
  `unlink` of an `uncache` are no steps here.  This is Ruby 1.8 (see `JobQueue`): in 1.9
  `load_lock_id` raises, and the refresher takes the lock for stolen.
-/
import RubyQueue.Base.HardLink
import RubyQueue.Base.Run

namespace RubyQueue.Lockfile

open RubyQueue.Run RubyQueue.HardLink

/-! ## Files and processes -/

/-- The options of a `Lockfile`. -/
structure Options where
  maxAge : Option Nat
  retries : Option Nat
  pollRetries : Nat
  dontUseLockId : Bool

/-- The options of `Lockfile::create`. -/
def Options.create : Options := ⟨none, some 0, 0, true⟩

/-- What `gen_lock_id` makes: which process, and when. -/
structure LockId (P : Type) where
  process : P
  time : Nat
deriving DecidableEq, Repr

/-- A file: whose `create_tmplock` made it (`none`: none of the processes), the lock id in it, and its
    mtime. -/
structure File (P : Type) where
  maker : Option P
  lockId : Option (LockId P)
  mtime : Nat
deriving DecidableEq, Repr

/-- `@path`, and the path `tmpnam` gives a process. -/
inductive Name (P : Type)
  | lock
  | tmp (p : P)
deriving DecidableEq, Repr

/-- Where a process is.  `file` is its temporary file, `polls` and `retries` are `i` and
    `n_retries`. -/
inductive Pc
  | out
  | creating
  | writing (file : Nat)
  | linking (file polls retries : Nat)
  -- the link is made; about to `lstat` the path
  | linked (file polls retries : Nat)
  -- `validlock?`
  | judging (file retries : Nat)
  -- in `uncache`, with the mtime it has read
  | caching (file retries mtime : Nat)
  | ageing (file retries : Nat)
  | stale (file retries : Nat)
  -- `@locked`; the temporary file is about to go
  | locked (file : Nat)
  -- the same on the way out, to try again or with an exception
  | again
  | giving
  -- in the block; the refresher has touched the path, and is about to read the lock id
  | holding (file : Nat)
  | touched (file : Nat)
  | dead
deriving DecidableEq, Repr

/-- The directory of the lock and the processes.  `lockTime` is the time in `@lock_id`; `renewed` is
    when a process last wrote to or touched what it takes for its lock, which the program does not
    look at. -/
structure State (P : Type) where
  dir : Dir (Name P)
  file : Nat → File P
  pc : P → Pc
  now : Nat
  lockTime : P → Nat
  renewed : P → Nat

inductive Label (P : Type)
  | call (p : P)
  -- the next file operation of `p`
  | run (p : P)
  -- an operation of `uncache` raises
  | skip (p : P)
  -- the refresher of `p`
  | touch (p : P)
  | verify (p : P)
  -- the end of the block
  | unlock (p : P)
  | kill (p : P)
  -- a `sweep` takes the temporary file of `p`
  | sweep (p : P)
  | tick
deriving DecidableEq, Repr

variable {P : Type} {o : Options} {s t : State P} {a : Label P}

section
variable [DecidableEq P]

/-- The file at the path. -/
def State.path (s : State P) : Option Nat := s.dir.entry .lock

/-- `p` goes on to `φ`. -/
def State.go (s : State P) (p : P) (φ : Pc) : State P := { s with pc := Function.update s.pc p φ }

/-! ## `lock` -/

/-- After an exception in a poll. -/
def afterPoll (o : Options) (file polls retries : Nat) : Pc :=
  if o.pollRetries ≤ polls + 1 then .judging file (retries + 1)
  else .linking file (polls + 1) retries

/-- `validlock?` was `true` or `nil`. -/
def afterVerdict (o : Options) (file retries : Nat) : Pc :=
  if o.retries.any (· ≤ retries) then .giving else .linking file 0 retries

/-- The stat of the path in `uncache`.  Without `max_age` there is none, and no way to `false`. -/
def afterStat (o : Options) (s : State P) (file retries : Nat) : Pc :=
  match o.maxAge, s.path with
  | none, _ => afterVerdict o file retries
  | some _, none => .ageing file retries
  | some _, some j => .caching file retries (s.file j).mtime

/-- `(Time.now - File::stat(@path).mtime) < @max_age`. -/
def afterAge (o : Options) (s : State P) (file retries : Nat) : Pc :=
  match o.maxAge, s.path with
  | some maxAge, some j =>
    if s.now < (s.file j).mtime + maxAge then afterVerdict o file retries else .stale file retries
  | _, _ => afterVerdict o file retries

/-- The next file operation of a process in `lock`. -/
def runStep (o : Options) (s : State P) (p : P) : Option (State P) :=
  match s.pc p with
  | .creating =>
    match s.dir.create (.tmp p) with
    | none => some (s.go p .giving)
    | some d =>
      some { s.go p (.writing s.dir.used) with
        dir := d
        file := Function.update s.file s.dir.used ⟨some p, none, s.now⟩
        renewed := Function.update s.renewed p s.now }
  | .writing i =>
    if o.dontUseLockId then some (s.go p (.linking i 0 0))
    else
      some { s.go p (.linking i 0 0) with
        file := Function.update s.file i
          { s.file i with lockId := some ⟨p, s.now⟩, mtime := s.now }
        lockTime := Function.update s.lockTime p s.now
        renewed := Function.update s.renewed p s.now }
  | .linking i polls retries =>
    match s.dir.link (.tmp p) .lock with
    | .ok d => some { s.go p (.linked i polls retries) with dir := d }
    | .error .noent => some (s.go p .again)
    | .error .exist => some (s.go p (afterPoll o i polls retries))
  | .linked i polls retries =>
    -- the link is taken for made only when the path leads to the file of the process
    if s.path = some i then some (s.go p (.locked i)) else some (s.go p (afterPoll o i polls retries))
  | .judging i retries => some (s.go p (afterStat o s i retries))
  | .caching i retries mtime =>
    match s.path with
    | none => some (s.go p (.ageing i retries))
    | some j =>
      some { s.go p (.ageing i retries) with
        file := Function.update s.file j { s.file j with mtime := mtime } }
  | .ageing i retries => some (s.go p (afterAge o s i retries))
  | .stale i retries => some { s.go p (.linking i 0 retries) with dir := s.dir.unlink .lock }
  | .locked i => some { s.go p (.holding i) with dir := s.dir.unlink (.tmp p) }
  | .again => some { s.go p .creating with dir := s.dir.unlink (.tmp p) }
  | .giving => some { s.go p .out with dir := s.dir.unlink (.tmp p) }
  | _ => none

/-- `touch path` of the refresher, which makes the file when there is none. -/
def touchStep (s : State P) (p : P) : Option (State P) :=
  match s.pc p with
  | .holding i =>
    match s.path with
    | some j =>
      some { s.go p (.touched i) with
        file := Function.update s.file j { s.file j with mtime := s.now }
        renewed := Function.update s.renewed p s.now }
    | none =>
      some { s.go p (.touched i) with
        dir := s.dir.add .lock
        file := Function.update s.file s.dir.used ⟨none, none, s.now⟩
        renewed := Function.update s.renewed p s.now }
  | _ => none

/-- `raise unless loaded == @lock_id`, which ends the block with `StolenLockError` and no unlock. -/
def verifyStep (o : Options) (s : State P) (p : P) : Option (State P) :=
  match s.pc p with
  | .touched i =>
    if o.dontUseLockId = true ∨
        (∃ j, s.path = some j ∧ (s.file j).lockId = some ⟨p, s.lockTime p⟩) then
      some (s.go p (.holding i))
    else some (s.go p .out)
  | _ => none

/-- `unlock`, and the `StolenLockError` it raises when the path is gone. -/
def unlockStep (s : State P) (p : P) : Option (State P) :=
  match s.pc p with
  | .holding _ | .touched _ => some { s.go p .out with dir := s.dir.unlink .lock }
  | _ => none

def step (o : Options) (s : State P) : Label P → Option (State P)
  | .call p => if s.pc p = .out then some (s.go p .creating) else none
  | .run p => runStep o s p
  | .skip p =>
    match s.pc p with
    | .caching i retries _ => some (s.go p (.ageing i retries))
    | _ => none
  | .touch p => touchStep s p
  | .verify p => verifyStep o s p
  | .unlock p => unlockStep s p
  | .kill p => some (s.go p .dead)
  | .sweep p => some { s with dir := s.dir.unlink (.tmp p) }
  | .tick => some { s with now := s.now + 1 }

/-- Nobody has called `lock` yet; a lock may have been left behind, of any age. -/
def Initial (s : State P) : Prop :=
  (∀ p, s.pc p = .out) ∧ (∀ p, s.dir.entry (.tmp p) = none) ∧ ∀ i, (s.file i).maker = none

end

/-! ## Two processes to look at -/

/-- A lock that is three units old is stale, and every poll is followed by a verdict. -/
def short : Options := ⟨some 3, none, 1, false⟩

/-- At time 5 there is a lock of time 0, left behind by a process that is gone. -/
def abandoned : State Bool where
  dir := (Dir.empty (Name Bool)).add .lock
  file := fun _ => ⟨none, none, 0⟩
  pc := fun _ => .out
  now := 5
  lockTime := fun _ => 0
  renewed := fun _ => 0

theorem initial_abandoned : Initial abandoned :=
  ⟨fun _ => rfl, fun _ => rfl, fun _ => rfl⟩

/-- `p` runs `n` operations. -/
def runs (p : Bool) (n : Nat) : List (Label Bool) := List.replicate n (.run p)

/-! ## What the invariants read off a `Pc` -/

/-- The temporary file, from when it is made. -/
def Pc.file : Pc → Option Nat
  | .writing i | .linking i _ _ | .linked i _ _ | .judging i _ | .caching i _ _ | .ageing i _ => some i
  | .stale i _ | .locked i | .holding i | .touched i => some i
  | _ => none

/-- The temporary file, from when the lock id is in it. -/
def Pc.written : Pc → Option Nat
  | .writing _ => none
  | φ => φ.file

/-- Between the creation of the temporary file and its removal. -/
def Pc.tmp : Pc → Bool
  | .out | .creating | .holding _ | .touched _ | .dead => false
  | _ => true

/-- `@locked`. -/
def Pc.holds : Pc → Option Nat
  | .locked i | .holding i | .touched i => some i
  | _ => none

/-- About to do something to the path because of a stat that lies behind. -/
def Pc.midway : Pc → Bool
  | .caching _ _ _ | .stale _ _ => true
  | _ => false

theorem file_of_written {φ : Pc} {i : Nat} (h : φ.written = some i) : φ.file = some i := by
  cases φ <;> first | exact h | cases h

theorem written_of_holds {φ : Pc} {i : Nat} (h : φ.holds = some i) : φ.written = some i := by
  cases φ <;> first | exact h | cases h

/-! ## What a step can do -/

/-- A step from which only the place of `p` changes. -/
structure Quiet (o : Options) (s : State P) (p : P) (φ : Pc) : Prop where
  file : ∀ i, φ.file = some i → (s.pc p).file = some i
  written : o.dontUseLockId = false → ∀ i, φ.written = some i → (s.pc p).written = some i
  tmp : (s.pc p).tmp = true → φ.tmp = true ∨ φ = .dead
  dead : s.pc p = .dead → φ = .dead
  holds : ∀ i, φ.holds = some i → s.path = some i ∨ (s.pc p).holds = some i
  notWriting : ∀ i, φ ≠ .writing i
  caching : ∀ i retries mtime, φ = .caching i retries mtime →
    ∃ j, s.path = some j ∧ (s.file j).mtime = mtime
  stale : ∀ i retries, φ = .stale i retries →
    ∃ maxAge j, o.maxAge = some maxAge ∧ s.path = some j ∧ (s.file j).mtime + maxAge ≤ s.now

/-- `p` polls or waits on. -/
theorem quiet_waiting {p : P} {φ : Pc} {i : Nat} (hw : (s.pc p).written = some i)
    (hφ : (∃ polls retries, φ = .linking i polls retries) ∨ (∃ retries, φ = .judging i retries) ∨
      (∃ retries, φ = .ageing i retries) ∨ φ = .giving ∨ φ = .again) : Quiet o s p φ := by
  have hf := file_of_written hw
  have hd : s.pc p ≠ .dead := by
    intro hd
    rw [hd] at hf
    cases hf
  rcases hφ with ⟨polls, retries, rfl⟩ | ⟨retries, rfl⟩ | ⟨retries, rfl⟩ | rfl | rfl
  all_goals constructor <;> simp_all [Pc.file, Pc.written, Pc.tmp, Pc.holds]

theorem quiet_afterPoll {p : P} {i : Nat} (hw : (s.pc p).written = some i) (polls retries : Nat) :
    Quiet o s p (afterPoll o i polls retries) := by
  unfold afterPoll
  split
  · exact quiet_waiting hw (Or.inr (Or.inl ⟨_, rfl⟩))
  · exact quiet_waiting hw (Or.inl ⟨_, _, rfl⟩)

theorem quiet_afterVerdict {p : P} {i : Nat} (hw : (s.pc p).written = some i) (retries : Nat) :
    Quiet o s p (afterVerdict o i retries) := by
  unfold afterVerdict
  split
  · exact quiet_waiting hw (Or.inr (Or.inr (Or.inr (Or.inl rfl))))
  · exact quiet_waiting hw (Or.inl ⟨_, _, rfl⟩)

theorem quiet_afterStat {p : P} {i retries : Nat} (hp : s.pc p = .judging i retries) :
    Quiet o s p (afterStat o s i retries) := by
  have hw : (s.pc p).written = some i := by rw [hp]; rfl
  unfold afterStat
  split
  · exact quiet_afterVerdict hw retries
  · exact quiet_waiting hw (Or.inr (Or.inr (Or.inl ⟨_, rfl⟩)))
  · rename_i j _ hj
    constructor <;> simp_all [Pc.file, Pc.written, Pc.tmp, Pc.holds]

theorem quiet_afterAge {p : P} {i retries : Nat} (hp : s.pc p = .ageing i retries) :
    Quiet o s p (afterAge o s i retries) := by
  have hw : (s.pc p).written = some i := by rw [hp]; rfl
  unfold afterAge
  split
  · rename_i maxAge j hage hj
    split
    · exact quiet_afterVerdict hw retries
    · constructor <;> simp_all [Pc.file, Pc.written, Pc.tmp, Pc.holds]
  · exact quiet_afterVerdict hw retries

theorem quiet_dead (p : P) : Quiet o s p .dead := by
  constructor <;> simp [Pc.file, Pc.written, Pc.tmp, Pc.holds]

section
variable [DecidableEq P]

/-- The steps of the system, by what they change. -/
inductive Effect (o : Options) (s : State P) : Label P → State P → Prop
  | quiet {a p φ} : Quiet o s p φ → Effect o s a (s.go p φ)
  | create {p} : s.pc p = .creating → s.dir.entry (.tmp p) = none →
      Effect o s (.run p) { s.go p (.writing s.dir.used) with
        dir := s.dir.add (.tmp p)
        file := Function.update s.file s.dir.used ⟨some p, none, s.now⟩
        renewed := Function.update s.renewed p s.now }
  | write {p i} : s.pc p = .writing i →
      Effect o s (.run p) { s.go p (.linking i 0 0) with
        file := Function.update s.file i
          { s.file i with lockId := some ⟨p, s.now⟩, mtime := s.now }
        lockTime := Function.update s.lockTime p s.now
        renewed := Function.update s.renewed p s.now }
  | link {p i polls retries d} : s.pc p = .linking i polls retries →
      s.dir.link (.tmp p) .lock = .ok d →
      Effect o s (.run p) { s.go p (.linked i polls retries) with dir := d }
  | utime {p i retries mtime j} : s.pc p = .caching i retries mtime → s.path = some j →
      Effect o s (.run p) { s.go p (.ageing i retries) with
        file := Function.update s.file j { s.file j with mtime := mtime } }
  | steal {p i retries} : s.pc p = .stale i retries →
      Effect o s (.run p) { s.go p (.linking i 0 retries) with dir := s.dir.unlink .lock }
  -- the temporary file goes
  | drop {p φ} : (s.pc p).tmp = true → (φ = .out ∨ φ = .creating ∨
        ∃ i, s.pc p = .locked i ∧ φ = .holding i) →
      Effect o s (.run p) { s.go p φ with dir := s.dir.unlink (.tmp p) }
  | touch {p i j} : s.pc p = .holding i → s.path = some j →
      Effect o s (.touch p) { s.go p (.touched i) with
        file := Function.update s.file j { s.file j with mtime := s.now }
        renewed := Function.update s.renewed p s.now }
  | make {p i} : s.pc p = .holding i → s.path = none →
      Effect o s (.touch p) { s.go p (.touched i) with
        dir := s.dir.add .lock
        file := Function.update s.file s.dir.used ⟨none, none, s.now⟩
        renewed := Function.update s.renewed p s.now }
  | unlock {p i} : (s.pc p).holds = some i → (s.pc p).tmp = false →
      Effect o s (.unlock p) { s.go p .out with dir := s.dir.unlink .lock }
  | sweep {p} : Effect o s (.sweep p) { s with dir := s.dir.unlink (.tmp p) }
  | tick : Effect o s .tick { s with now := s.now + 1 }

theorem runStep_effect {p : P} (h : runStep o s p = some t) : Effect o s (.run p) t := by
  unfold runStep at h
  cases hp : s.pc p with
  | creating =>
    rw [hp] at h
    cases hc : s.dir.create (.tmp p) with
    | none =>
      simp only [hc] at h
      obtain rfl := Option.some.inj h
      refine .quiet ?_
      constructor <;> simp_all [Pc.file, Pc.written, Pc.tmp, Pc.holds]
    | some d =>
      simp only [hc] at h
      obtain rfl := Option.some.inj h
      obtain ⟨hnone, rfl⟩ := create_some hc
      exact .create hp hnone
  | writing i =>
    simp only [hp] at h
    split at h
    · rename_i huse
      obtain rfl := Option.some.inj h
      refine .quiet ?_
      constructor <;> simp_all [Pc.file, Pc.written, Pc.tmp, Pc.holds]
    · obtain rfl := Option.some.inj h
      exact .write hp
  | linking i polls retries =>
    have hw : (s.pc p).written = some i := by rw [hp]; rfl
    simp only [hp] at h
    cases hl : s.dir.link (.tmp p) .lock with
    | ok d =>
      simp only [hl] at h
      obtain rfl := Option.some.inj h
      exact .link hp hl
    | error e =>
      cases e with
      | noent =>
        simp only [hl] at h
        obtain rfl := Option.some.inj h
        exact .quiet (quiet_waiting hw (Or.inr (Or.inr (Or.inr (Or.inr rfl)))))
      | exist =>
        simp only [hl] at h
        obtain rfl := Option.some.inj h
        exact .quiet (quiet_afterPoll hw polls retries)
  | linked i polls retries =>
    have hw : (s.pc p).written = some i := by rw [hp]; rfl
    simp only [hp] at h
    split at h
    · obtain rfl := Option.some.inj h
      refine .quiet ?_
      constructor <;> simp_all [Pc.file, Pc.written, Pc.tmp, Pc.holds]
    · obtain rfl := Option.some.inj h
      exact .quiet (quiet_afterPoll hw polls retries)
  | judging i retries =>
    simp only [hp] at h
    obtain rfl := Option.some.inj h
    exact .quiet (quiet_afterStat hp)
  | caching i retries mtime =>
    have hw : (s.pc p).written = some i := by rw [hp]; rfl
    simp only [hp] at h
    cases hpath : s.path with
    | none =>
      simp only [hpath] at h
      obtain rfl := Option.some.inj h
      exact .quiet (quiet_waiting hw (Or.inr (Or.inr (Or.inl ⟨_, rfl⟩))))
    | some j =>
      simp only [hpath] at h
      obtain rfl := Option.some.inj h
      exact .utime hp hpath
  | ageing i retries =>
    simp only [hp] at h
    obtain rfl := Option.some.inj h
    exact .quiet (quiet_afterAge hp)
  | stale i retries =>
    simp only [hp] at h
    obtain rfl := Option.some.inj h
    exact .steal hp
  | locked i =>
    simp only [hp] at h
    obtain rfl := Option.some.inj h
    exact .drop (by rw [hp]; rfl) (Or.inr (Or.inr ⟨i, hp, rfl⟩))
  | again =>
    simp only [hp] at h
    obtain rfl := Option.some.inj h
    exact .drop (by rw [hp]; rfl) (Or.inr (Or.inl rfl))
  | giving =>
    simp only [hp] at h
    obtain rfl := Option.some.inj h
    exact .drop (by rw [hp]; rfl) (Or.inl rfl)
  | out | holding i | touched i | dead =>
    simp only [hp] at h
    cases h

/-- Every step is one of the effects. -/
theorem step_effect (h : step o s a = some t) : Effect o s a t := by
  cases a with
  | call p =>
    simp only [step, Option.ite_none_right_eq_some] at h
    obtain ⟨hp, h⟩ := h
    obtain rfl := Option.some.inj h
    refine .quiet ?_
    constructor <;> simp_all [Pc.file, Pc.written, Pc.tmp, Pc.holds]
  | run p => exact runStep_effect h
  | skip p =>
    simp only [step] at h
    split at h
    · rename_i i retries mtime hp
      obtain rfl := Option.some.inj h
      exact .quiet (quiet_waiting (by rw [hp]; rfl) (Or.inr (Or.inr (Or.inl ⟨_, rfl⟩))))
    · cases h
  | touch p =>
    simp only [step, touchStep] at h
    split at h
    · rename_i i hp
      cases hpath : s.path with
      | none =>
        simp only [hpath] at h
        obtain rfl := Option.some.inj h
        exact .make hp hpath
      | some j =>
        simp only [hpath] at h
        obtain rfl := Option.some.inj h
        exact .touch hp hpath
    · cases h
  | verify p =>
    simp only [step, verifyStep] at h
    split at h
    · rename_i i hp
      split at h
      · obtain rfl := Option.some.inj h
        refine .quiet ?_
        constructor <;> simp_all [Pc.file, Pc.written, Pc.tmp, Pc.holds]
      · obtain rfl := Option.some.inj h
        refine .quiet ?_
        constructor <;> simp_all [Pc.file, Pc.written, Pc.tmp, Pc.holds]
    · cases h
  | unlock p =>
    simp only [step, unlockStep] at h
    split at h
    · rename_i i hp
      obtain rfl := Option.some.inj h
      exact .unlock (show (s.pc p).holds = some i by rw [hp]; rfl) (by rw [hp]; rfl)
    · rename_i i hp
      obtain rfl := Option.some.inj h
      exact .unlock (show (s.pc p).holds = some i by rw [hp]; rfl) (by rw [hp]; rfl)
    · cases h
  | kill p =>
    obtain rfl := Option.some.inj h
    exact .quiet (quiet_dead p)
  | sweep p =>
    obtain rfl := Option.some.inj h
    exact .sweep
  | tick =>
    obtain rfl := Option.some.inj h
    exact .tick

/-! ## What a step does to the files -/

@[simp] theorem pc_go (s : State P) (p q : P) (φ : Pc) :
    (s.go p φ).pc q = if q = p then φ else s.pc q :=
  Function.update_apply ..

theorem Effect.used (h : Effect o s a t) : s.dir.used ≤ t.dir.used := by
  cases h with
  | link _ hl =>
    obtain ⟨_, _, _, hu, _⟩ := link_ok hl
    exact Nat.le_of_eq hu.symm
  | create | make => exact Nat.le_succ _
  | _ => exact Nat.le_refl _

/-- The files of a process stay what they are, but for the one it creates. -/
theorem Effect.file {q : P} {i : Nat} (h : Effect o s a t) (hq : (t.pc q).file = some i) :
    (s.pc q).file = some i ∨ s.pc q = .creating ∧
      i = s.dir.used ∧ i < t.dir.used ∧ (t.file i).maker = some q := by
  cases h with
  | @quiet a p φ hφ =>
    rw [pc_go] at hq
    split at hq
    · rename_i heq
      subst heq
      exact Or.inl (hφ.file i hq)
    · exact Or.inl hq
  | @create p hp hnone =>
    simp only [pc_go] at hq
    split at hq
    · rename_i heq
      obtain rfl := Option.some.inj hq
      subst heq
      exact Or.inr ⟨hp, rfl, Nat.lt_succ_self _, by simp⟩
    · exact Or.inl hq
  | @drop p φ htmp hφ =>
    simp only [pc_go] at hq
    split at hq
    · rename_i heq
      subst heq
      rcases hφ with rfl | rfl | ⟨j, hj, rfl⟩
      · cases hq
      · cases hq
      · rw [hj]
        exact Or.inl hq
    · exact Or.inl hq
  | write hp | link hp _ | utime hp _ | steal hp | touch hp _ | make hp _ =>
    simp only [pc_go] at hq
    split at hq
    · rename_i heq
      subst heq
      rw [hp]
      exact Or.inl hq
    · exact Or.inl hq
  | unlock hp =>
    simp only [pc_go] at hq
    split at hq
    · cases hq
    · exact Or.inl hq
  | sweep | tick => exact Or.inl hq

theorem Effect.writing {q : P} {i : Nat} (h : Effect o s a t) (hq : t.pc q = .writing i) :
    s.pc q = .writing i ∨ i = s.dir.used := by
  cases h with
  | quiet hφ =>
    rw [pc_go] at hq
    split at hq
    · exact absurd hq (hφ.notWriting i)
    · exact Or.inl hq
  | create =>
    simp only [pc_go] at hq
    split at hq
    · obtain rfl := Pc.writing.inj hq
      exact Or.inr rfl
    · exact Or.inl hq
  | drop _ hφ =>
    simp only [pc_go] at hq
    split at hq
    · rcases hφ with rfl | rfl | ⟨j, _, rfl⟩
      · cases hq
      · cases hq
      · cases hq
    · exact Or.inl hq
  | write | link | utime | steal | touch | make | unlock =>
    simp only [pc_go] at hq
    split at hq
    · cases hq
    · exact Or.inl hq
  | sweep | tick => exact Or.inl hq

/-- A file keeps its maker. -/
theorem Effect.maker {i : Nat} (h : Effect o s a t) (hi : i < s.dir.used) :
    (t.file i).maker = (s.file i).maker := by
  have hne : i ≠ s.dir.used := by omega
  cases h with
  | create | make => simp [hne]
  | write | utime | touch =>
    simp only [Function.update_apply]
    split
    · rename_i heq
      rw [heq]
    · rfl
  | _ => rfl

/-- A file keeps its lock id, but for the one a process is writing to. -/
theorem Effect.lockId {i : Nat} (h : Effect o s a t) (hi : i < s.dir.used) :
    (t.file i).lockId = (s.file i).lockId ∨
      ∃ p, s.pc p = .writing i ∧ (t.file i).lockId = some ⟨p, t.lockTime p⟩ := by
  have hne : i ≠ s.dir.used := by omega
  cases h with
  | create | make => simp [hne]
  | @write p j hp =>
    by_cases hij : i = j
    · subst hij
      exact Or.inr ⟨p, hp, by simp⟩
    · exact Or.inl (by simp [hij])
  | utime | touch =>
    simp only [Function.update_apply]
    split
    · rename_i heq
      rw [heq]
      exact Or.inl rfl
    · exact Or.inl rfl
  | _ => exact Or.inl rfl

/-- A process whose lock id is written has the one it had, or has just written it. -/
theorem Effect.written {q : P} {i : Nat} (huse : o.dontUseLockId = false) (h : Effect o s a t)
    (hq : (t.pc q).written = some i) :
    (s.pc q).written = some i ∧ t.lockTime q = s.lockTime q ∨
      (t.file i).lockId = some ⟨q, t.lockTime q⟩ := by
  cases h with
  | @quiet a p φ hφ =>
    rw [pc_go] at hq
    split at hq
    · rename_i heq
      subst heq
      exact Or.inl ⟨hφ.written huse i hq, rfl⟩
    · exact Or.inl ⟨hq, rfl⟩
  | @write p j hp =>
    simp only [pc_go] at hq
    split at hq
    · rename_i heq
      obtain rfl := Option.some.inj hq
      subst heq
      exact Or.inr (by simp)
    · rename_i hne
      exact Or.inl ⟨hq, by simp [hne]⟩
  | @drop p φ htmp hφ =>
    simp only [pc_go] at hq
    split at hq
    · rename_i heq
      subst heq
      rcases hφ with rfl | rfl | ⟨j, hj, rfl⟩
      · cases hq
      · cases hq
      · rw [hj]
        exact Or.inl ⟨hq, rfl⟩
    · exact Or.inl ⟨hq, rfl⟩
  | create hp _ =>
    simp only [pc_go] at hq
    split at hq
    · cases hq
    · exact Or.inl ⟨hq, rfl⟩
  | link hp _ | utime hp _ | steal hp | touch hp _ | make hp _ =>
    simp only [pc_go] at hq
    split at hq
    · rename_i heq
      subst heq
      rw [hp]
      exact Or.inl ⟨hq, rfl⟩
    · exact Or.inl ⟨hq, rfl⟩
  | unlock hp =>
    simp only [pc_go] at hq
    split at hq
    · cases hq
    · exact Or.inl ⟨hq, rfl⟩
  | sweep | tick => exact Or.inl ⟨hq, rfl⟩

/-- What is at the path was there, or has been linked there, or a refresher has just made it. -/
theorem Effect.path {j : Nat} (h : Effect o s a t) (hj : t.path = some j) :
    s.path = some j ∨
      (s.path = none ∧ ∃ p i polls retries, a = .run p ∧ s.pc p = .linking i polls retries ∧
        s.dir.entry (.tmp p) = some j) ∨
      s.path = none ∧ j = s.dir.used ∧ (t.file j).maker = none := by
  unfold State.path at hj ⊢
  cases h with
  | @link p i polls retries d hp hl =>
    obtain ⟨k, hk, hnone, _, hd⟩ := link_ok hl
    refine Or.inr (Or.inl ⟨hnone, p, i, polls, retries, rfl, hp, ?_⟩)
    rw [hk, ← hj]
    simp [hd]
  | make hp hnone =>
    obtain rfl : s.dir.used = j := by simpa using hj
    exact Or.inr (Or.inr ⟨hnone, rfl, by simp⟩)
  | create | drop | sweep => exact Or.inl (by simpa using hj)
  | steal | unlock => simp at hj
  | quiet | write | utime | touch | tick => exact Or.inl hj

/-- A temporary file was there, or has just been created. -/
theorem Effect.entry {q : P} {k : Nat} (h : Effect o s a t)
    (hk : t.dir.entry (.tmp q) = some k) :
    s.dir.entry (.tmp q) = some k ∨ t.pc q = .writing k := by
  cases h with
  | @create p hp hnone =>
    simp only [entry_add] at hk
    split at hk
    · rename_i heq
      obtain rfl := Name.tmp.inj heq
      obtain rfl := Option.some.inj hk
      exact Or.inr (by simp)
    · exact Or.inl hk
  | link hp hl =>
    obtain ⟨_, _, _, _, hd⟩ := link_ok hl
    rw [hd] at hk
    exact Or.inl (by simpa using hk)
  | make | steal | unlock => exact Or.inl (by simpa using hk)
  | drop | sweep =>
    simp only [entry_unlink] at hk
    split at hk
    · cases hk
    · exact Or.inl hk
  | quiet | write | utime | touch | tick => exact Or.inl hk

/-- Where its temporary file is left in place, a process is not past its removal. -/
theorem Effect.tmp {q : P} {k : Nat} (h : Effect o s a t) (hk : t.dir.entry (.tmp q) = some k)
    (hq : (s.pc q).tmp = true ∨ s.pc q = .dead) : (t.pc q).tmp = true ∨ t.pc q = .dead := by
  cases h with
  | @quiet a p φ hφ =>
    rw [pc_go]
    split
    · rename_i heq
      subst heq
      rcases hq with hq | hq
      · exact hφ.tmp hq
      · exact Or.inr (hφ.dead hq)
    · exact hq
  | @drop p φ htmp hφ =>
    by_cases heq : q = p
    · simp [heq] at hk
    · simpa [heq] using hq
  | create | write | link | utime | steal =>
    simp only [pc_go]
    split
    · exact Or.inl rfl
    · exact hq
  | touch hp _ | make hp _ =>
    simp only [pc_go]
    split
    · rename_i heq
      simp [heq, hp, Pc.tmp] at hq
    · exact hq
  | unlock hp hnot =>
    simp only [pc_go]
    split
    · rename_i heq
      subst heq
      rcases hq with hq | hq
      · rw [hnot] at hq
        cases hq
      · rw [hq] at hp
        cases hp
    · exact hq
  | sweep | tick => exact hq

end

/-! ## Every run -/

structure Inv (o : Options) (s : State P) : Prop where
  below : ∀ p i, (s.pc p).file = some i → i < s.dir.used
  made : ∀ p i, (s.pc p).file = some i → (s.file i).maker = some p
  temp : ∀ p k, s.dir.entry (.tmp p) = some k → (s.pc p).tmp = true ∨ s.pc p = .dead
  /-- The name of a temporary file leads to the file the process has created. -/
  named : ∀ p k i, s.dir.entry (.tmp p) = some k → (s.pc p).file = some i → k = i
  /-- It is not at the path while it is being written. -/
  unwritten : ∀ p i, s.pc p = .writing i → s.path ≠ some i
  signed : o.dontUseLockId = false →
    ∀ p i, (s.pc p).written = some i → (s.file i).lockId = some ⟨p, s.lockTime p⟩
  published : o.dontUseLockId = false → ∀ p i, s.path = some i → (s.file i).maker = some p →
    ∃ time, (s.file i).lockId = some ⟨p, time⟩

/-- The temporary files of two processes differ. -/
theorem Inv.apart (hi : Inv o s) {p q : P} {i : Nat} (hp : (s.pc p).file = some i)
    (hq : (s.pc q).file = some i) : p = q := by
  have h := hi.made p i hp
  rw [hi.made q i hq] at h
  exact (Option.some.inj h).symm

theorem Inv.initial [DecidableEq P] (h : Initial s) : Inv o s := by
  obtain ⟨hpc, htmp, hmaker⟩ := h
  have hfile : ∀ p i, (s.pc p).file ≠ some i := fun p i h => by
    rw [hpc] at h
    cases h
  exact {
    below := fun p i h => absurd h (hfile p i)
    made := fun p i h => absurd h (hfile p i)
    temp := fun p k h => by
      rw [htmp] at h
      cases h
    named := fun p k i h => by
      rw [htmp] at h
      cases h
    unwritten := fun p i h => by
      rw [hpc] at h
      cases h
    signed := fun _ p i h => absurd (file_of_written h) (hfile p i)
    published := fun _ p i _ h => by
      rw [hmaker] at h
      cases h }

section
variable [DecidableEq P]

/-- The file that is linked is the one the process has created. -/
theorem Inv.path (hi : Inv o s) (h : Effect o s a t) {i : Nat} (hpath : t.path = some i) :
    s.path = some i ∨ (∃ q, (s.pc q).written = some i) ∨
      i = s.dir.used ∧ (t.file i).maker = none := by
  rcases h.path hpath with hold | ⟨_, q, j, polls, retries, _, hq, hentry⟩ | ⟨_, hfresh⟩
  · exact Or.inl hold
  · obtain rfl := hi.named q i j hentry (by rw [hq]; rfl)
    exact Or.inr (Or.inl ⟨q, by rw [hq]; rfl⟩)
  · exact Or.inr (Or.inr hfresh)

theorem Inv.made_step (hi : Inv o s) (h : Effect o s a t) {p : P} {i : Nat}
    (hp : (t.pc p).file = some i) : (t.file i).maker = some p := by
  rcases h.file hp with hold | ⟨_, _, _, hm⟩
  · rw [h.maker (hi.below p i hold)]
    exact hi.made p i hold
  · exact hm

/-- A lock id that is written stays. -/
theorem Inv.lockId_step (hi : Inv o s) (h : Effect o s a t) {p : P} {i : Nat}
    (hp : (s.pc p).written = some i) : (t.file i).lockId = (s.file i).lockId := by
  have hfile := file_of_written hp
  rcases h.lockId (hi.below p i hfile) with hsame | ⟨q, hq, _⟩
  · exact hsame
  · -- nobody else writes to the file of `p`
    obtain rfl : q = p := hi.apart (by rw [hq]; rfl) hfile
    rw [hq] at hp
    cases hp

theorem Inv.unwritten_step (hi : Inv o s) (h : Effect o s a t) {p : P} {i : Nat}
    (hp : t.pc p = .writing i) : t.path ≠ some i := by
  intro hpath
  rcases hi.path h hpath with hold | ⟨q, hq⟩ | ⟨_, hnone⟩
  · rcases h.writing hp with hw | rfl
    · exact hi.unwritten p i hw hold
    · exact absurd (s.dir.below hold) (Nat.lt_irrefl _)
  · have hfile := file_of_written hq
    rcases h.writing hp with hw | rfl
    · obtain rfl : p = q := hi.apart (by rw [hw]; rfl) hfile
      rw [hw] at hq
      cases hq
    · exact absurd (hi.below q _ hfile) (Nat.lt_irrefl _)
  · have hmade := hi.made_step h (p := p) (i := i) (by rw [hp]; rfl)
    rw [hnone] at hmade
    cases hmade

theorem Inv.published_step (hi : Inv o s) (h : Effect o s a t) (huse : o.dontUseLockId = false)
    {p : P} {i : Nat} (hpath : t.path = some i) (hm : (t.file i).maker = some p) :
    ∃ time, (t.file i).lockId = some ⟨p, time⟩ := by
  rcases hi.path h hpath with hold | ⟨q, hq⟩ | ⟨_, hnone⟩
  · have hlt := s.dir.below hold
    rw [h.maker hlt] at hm
    rcases h.lockId hlt with hsame | ⟨q, hq, _⟩
    · rw [hsame]
      exact hi.published huse p i hold hm
    · exact absurd hold (hi.unwritten q i hq)
  · have hfile := file_of_written hq
    rw [h.maker (hi.below q i hfile), hi.made q i hfile] at hm
    obtain rfl := Option.some.inj hm
    exact ⟨s.lockTime q, (hi.lockId_step h hq).trans (hi.signed huse q i hq)⟩
  · rw [hnone] at hm
    cases hm

theorem Inv.step (hi : Inv o s) (h : Effect o s a t) : Inv o t where
  below := by
    intro p i hp
    rcases h.file hp with hold | ⟨_, _, hlt, _⟩
    · have := hi.below p i hold
      have := h.used
      omega
    · exact hlt
  made := fun p i hp => hi.made_step h hp
  temp := by
    intro p k hk
    rcases h.entry hk with hold | hw
    · exact h.tmp hk (hi.temp p k hold)
    · exact Or.inl (by rw [hw]; rfl)
  named := by
    intro p k i hk hp
    rcases h.entry hk with hold | hw
    · rcases h.file hp with hfile | ⟨hcreating, _⟩
      · exact hi.named p k i hold hfile
      · -- the name is free when a process is about to create its file
        rcases hi.temp p k hold with htmp | hdead
        · rw [hcreating] at htmp
          cases htmp
        · rw [hcreating] at hdead
          cases hdead
    · rw [hw] at hp
      exact Option.some.inj hp
  unwritten := fun p i hp => hi.unwritten_step h hp
  signed := by
    intro huse p i hp
    rcases h.written huse hp with ⟨hold, htime⟩ | hnew
    · rw [hi.lockId_step h hold, htime]
      exact hi.signed huse p i hold
    · exact hnew
  published := fun huse p i hpath hm => hi.published_step h huse hpath hm

theorem inv_of_reach {good : State P → Label P → Prop} (h : Reach Initial (step o) good s) :
    Inv o s :=
  Reach.invariant (fun _ => Inv.initial) (fun _ _ _ hi _ hst => hi.step (step_effect hst)) h

/-- **A lock is never seen without its lock id.**  With lock ids in use, in any run, whatever is
    polled, stolen, swept and killed: a file at the path that one of the processes has made carries
    that process's lock id. -/
theorem published (o : Options) (s : State P) (huse : o.dontUseLockId = false)
    (h : Reach Initial (step o) (fun _ _ => True) s) (p : P) (i : Nat) (hpath : s.path = some i)
    (hmaker : (s.file i).maker = some p) : ∃ time, (s.file i).lockId = some ⟨p, time⟩ :=
  (inv_of_reach h).published huse p i hpath hmaker

theorem published_after_theft : ∃ s, exec (step short) (.call false :: runs false 10) abandoned = some s ∧
    s.path = some 1 ∧ ∃ time, (s.file 1).lockId = some ⟨false, time⟩ := by
  obtain ⟨s, hs, hobs⟩ : ∃ s, exec (step short) (.call false :: runs false 10) abandoned = some s ∧
      decide (s.path = some 1 ∧ (s.file 1).maker = some false) = true :=
    exists_of_any (by decide)
  obtain ⟨hpath, hmaker⟩ := of_decide_eq_true hobs
  have hr := Reach.exec (Reach.init initial_abandoned) (along_true _ _) hs
  exact ⟨s, hs, hpath, published short s rfl hr false 1 hpath hmaker⟩

/-- **No temporary file is forgotten.**  Where the temporary file of a process is in the directory, the
    process is still between its creation and its removal, or it has been killed. -/
theorem temporary_is_removed (o : Options) (s : State P)
    (h : Reach Initial (step o) (fun _ _ => True) s) (p : P) (k : Nat)
    (hk : s.dir.entry (.tmp p) = some k) : (s.pc p).tmp = true ∨ s.pc p = .dead :=
  (inv_of_reach h).temp p k hk

theorem temporary_of_killed : ∃ s,
    exec (step short) [.call false, .run false, .kill false] abandoned = some s ∧
    s.dir.entry (.tmp false) = some 1 ∧ ((s.pc false).tmp = true ∨ s.pc false = .dead) := by
  obtain ⟨s, hs, hobs⟩ : ∃ s,
      exec (step short) [.call false, .run false, .kill false] abandoned = some s ∧
      decide (s.dir.entry (.tmp false) = some 1) = true :=
    exists_of_any (by decide)
  have hentry := of_decide_eq_true hobs
  have hr := Reach.exec (Reach.init initial_abandoned) (along_true _ _) hs
  exact ⟨s, hs, hentry, temporary_is_removed short s hr false 1 hentry⟩

/-! ## One process in its block -/

/-- A thief does not remove the lock of a process in its block. -/
def Spared (s : State P) (a : Label P) : Prop :=
  ∀ p q i j retries, a = .run p → s.pc p = .stale i retries → (s.pc q).holds = some j →
    s.path ≠ some j

/-- Who is in its block has the file that is at the path. -/
def Owned (s : State P) : Prop := ∀ p i, (s.pc p).holds = some i → s.path = some i

omit [DecidableEq P] in
theorem Owned.exclusive (ho : Owned s) (hi : Inv o s) {p q : P} {i j : Nat}
    (hp : (s.pc p).holds = some i) (hq : (s.pc q).holds = some j) : p = q := by
  have hpath := ho p i hp
  rw [ho q j hq] at hpath
  obtain rfl : j = i := Option.some.inj hpath
  exact hi.apart (file_of_written (written_of_holds hp)) (file_of_written (written_of_holds hq))

/-- A process comes to hold the lock only by the `lstat` that finds its file at the path. -/
theorem Effect.holds {q : P} {i : Nat} (h : Effect o s a t) (hq : (t.pc q).holds = some i) :
    (s.pc q).holds = some i ∨ t.path = some i := by
  cases h with
  | quiet hφ =>
    rw [pc_go] at hq
    split at hq
    · rename_i heq
      subst heq
      exact (hφ.holds i hq).symm
    · exact Or.inl hq
  | drop _ hφ =>
    simp only [pc_go] at hq
    split at hq
    · rename_i heq
      subst heq
      rcases hφ with rfl | rfl | ⟨j, hj, rfl⟩
      · cases hq
      · cases hq
      · rw [hj]
        exact Or.inl hq
    · exact Or.inl hq
  | touch hp _ | make hp _ =>
    simp only [pc_go] at hq
    split at hq
    · rename_i heq
      subst heq
      rw [hp]
      exact Or.inl hq
    · exact Or.inl hq
  | create | write | link | utime | steal | unlock =>
    simp only [pc_go] at hq
    split at hq
    · cases hq
    · exact Or.inl hq
  | sweep | tick => exact Or.inl hq

/-- What is at the path stays, but for a thief and for the process that unlocks. -/
theorem Effect.removed {i : Nat} (h : Effect o s a t) (hpath : s.path = some i) :
    t.path = some i ∨
      (∃ p j retries, a = .run p ∧ s.pc p = .stale j retries ∧ t.pc p = .linking j 0 retries) ∨
      ∃ p j, a = .unlock p ∧ (s.pc p).holds = some j ∧ t.pc p = .out := by
  unfold State.path at hpath ⊢
  cases h with
  | link _ hl =>
    obtain ⟨_, _, hnone, _, _⟩ := link_ok hl
    rw [hnone] at hpath
    cases hpath
  | make _ hnone =>
    rw [State.path, hpath] at hnone
    cases hnone
  | steal hp => exact Or.inr (Or.inl ⟨_, _, _, rfl, hp, by simp⟩)
  | unlock hp => exact Or.inr (Or.inr ⟨_, _, rfl, hp, by simp⟩)
  | create | drop | sweep => exact Or.inl (by simpa using hpath)
  | quiet | write | utime | touch | tick => exact Or.inl hpath

theorem Owned.step (ho : Owned s) (hi : Inv o s) (hg : Spared s a) (h : Effect o s a t) :
    Owned t := by
  intro q i hq
  rcases h.holds hq with hold | hpath
  · have hpath := ho q i hold
    rcases h.removed hpath with hstays | ⟨p, j, retries, ha, hp, _⟩ | ⟨p, j, _, hp, hout⟩
    · exact hstays
    · exact absurd hpath (hg p q j i retries ha hp hold)
    · -- the process that unlocks is the one that holds the lock
      obtain rfl := ho.exclusive hi hp hold
      rw [hout] at hq
      cases hq
  · exact hpath

omit [DecidableEq P] in
theorem Owned.initial (hpc : ∀ p, s.pc p = .out) : Owned s := by
  intro p i h
  rw [hpc] at h
  cases h

/-- **One process in its block.**  In any interleaving of their file operations, with locks left
    behind, processes killed and temporary files swept away: as long as no thief removes the lock of
    a process that is in its block, no two processes are in their blocks. -/
theorem exclusive_of_spared (o : Options) (s : State P) (h : Reach Initial (step o) Spared s)
    (p q : P) (i j : Nat) (hp : (s.pc p).holds = some i) (hq : (s.pc q).holds = some j) : p = q := by
  have hinv : Inv o s ∧ Owned s := Reach.invariant (I := fun s => Inv o s ∧ Owned s)
    (fun _ hs => ⟨Inv.initial hs, Owned.initial hs.1⟩)
    (fun _ _ _ hs hg hst => ⟨hs.1.step (step_effect hst), hs.2.step hs.1 hg (step_effect hst)⟩) h
  exact hinv.2.exclusive hinv.1 hp hq

/-- Both processes find the abandoned lock stale, and the second one does not come to its unlink. -/
theorem one_of_two_thieves : ∃ s, Reach Initial (step short) Spared s ∧
    s.pc true = .stale 2 1 ∧ (s.pc false).holds = some 1 ∧
    ∀ q j, (s.pc q).holds = some j → false = q := by
  obtain ⟨s, hs, hobs⟩ : ∃ s,
      exec (checked (step short) fun s a => decide (∀ p q, a = .run p → (s.pc p).midway = true →
          (s.pc q).holds.isSome = true → s.path ≠ (s.pc q).holds))
        (.call false :: runs false 6 ++ .call true :: runs true 6 ++ runs false 4) abandoned =
          some s ∧
      decide (s.pc true = .stale 2 1 ∧ (s.pc false).holds = some 1) = true :=
    exists_of_any (by decide)
  obtain ⟨hstale, hholds⟩ := of_decide_eq_true hobs
  have hr : Reach Initial (step short) Spared s :=
    (Reach.checked (fun a _ s hq p q i j retries ha hp hj =>
      hj ▸ of_decide_eq_true hq p q ha (by rw [hp]; rfl) (by rw [hj]; rfl))
      (Reach.init initial_abandoned) hs).1
  exact ⟨s, hr, hstale, hholds, fun q j hq => exclusive_of_spared short s hr false q 1 j hholds hq⟩

/-- Without `max_age` there is no verdict to steal on. -/
theorem Effect.neverStale (hage : o.maxAge = none) (h : Effect o s a t)
    (hs : ∀ p i retries, s.pc p ≠ .stale i retries) (q : P) (i retries : Nat) :
    t.pc q ≠ .stale i retries := by
  intro hq
  cases h with
  | quiet hφ =>
    rw [pc_go] at hq
    split at hq
    · obtain ⟨maxAge, _, hsome, _⟩ := hφ.stale i retries hq
      rw [hage] at hsome
      cases hsome
    · exact hs q i retries hq
  | drop _ hφ =>
    simp only [pc_go] at hq
    split at hq
    · rcases hφ with rfl | rfl | ⟨_, _, rfl⟩ <;> cases hq
    · exact hs q i retries hq
  | create | write | link | utime | steal | touch | make | unlock =>
    simp only [pc_go] at hq
    split at hq
    · cases hq
    · exact hs q i retries hq
  | sweep | tick => exact hs q i retries hq

/-- **`Lockfile::create`.**  Without `max_age` no lock is ever stolen, and one process is in its block
    in every run. -/
theorem exclusive_without_age (o : Options) (hage : o.maxAge = none) (s : State P)
    (h : Reach Initial (step o) (fun _ _ => True) s) (p q : P) (i j : Nat)
    (hp : (s.pc p).holds = some i) (hq : (s.pc q).holds = some j) : p = q := by
  have hinv : Inv o s ∧ Owned s ∧ ∀ p i retries, s.pc p ≠ .stale i retries := by
    refine Reach.invariant
      (I := fun s => Inv o s ∧ Owned s ∧ ∀ p i retries, s.pc p ≠ .stale i retries)
      (fun s hs => ⟨Inv.initial hs, Owned.initial hs.1, ?_⟩) ?_ h
    · intro p i retries hstale
      rw [hs.1] at hstale
      cases hstale
    · intro s a t ⟨hi, ho, hnever⟩ _ hst
      have he := step_effect hst
      exact ⟨hi.step he,
        ho.step hi (fun p _ i _ retries _ hstale => absurd hstale (hnever p i retries)) he,
        he.neverStale hage hnever⟩
  exact hinv.2.1.exclusive hinv.1 hp hq

/-- The second `Lockfile::create` of a path fails. -/
theorem created_once : ∃ s, Reach Initial (step .create) (fun _ _ => True) s ∧
    s.pc true = .out ∧ (s.pc false).holds = some 0 ∧
    ∀ q j, (s.pc q).holds = some j → false = q := by
  have hfree : Initial { abandoned with dir := Dir.empty (Name Bool) } :=
    ⟨fun _ => rfl, fun _ => rfl, fun _ => rfl⟩
  obtain ⟨s, hs, hobs⟩ : ∃ s, exec (step .create)
        (.call false :: runs false 5 ++ .call true :: runs true 5)
        { abandoned with dir := Dir.empty (Name Bool) } = some s ∧
      decide (s.pc true = .out ∧ (s.pc false).holds = some 0) = true :=
    exists_of_any (by decide)
  obtain ⟨hout, hholds⟩ := of_decide_eq_true hobs
  have hr := Reach.exec (Reach.init hfree) (along_true _ _) hs
  exact ⟨s, hr, hout, hholds, fun q j hq => exclusive_without_age .create rfl s hr false q 0 j hholds hq⟩

/-! ## Leases -/

/-- Who touches or removes the lock in this step. -/
def Label.disturbs (s : State P) : Label P → Option P
  | .touch p | .unlock p => some p
  | .run p =>
    match s.pc p with
    | .stale _ _ => some p
    | _ => none
  | _ => none

/-- **The condition.**  A process in its block has written to or touched its lock less than `max_age`
    ago; and nobody touches or removes the lock while another process is between the two halves of
    `uncache`, or between a verdict and its unlink. -/
structure Leased (o : Options) (s : State P) (a : Label P) : Prop where
  fresh : ∀ p i maxAge, o.maxAge = some maxAge → (s.pc p).holds = some i →
    s.now < s.renewed p + maxAge
  undisturbed : ∀ p q, a.disturbs s = some p → (s.pc q).midway = true → q = p

structure Leases (o : Options) (s : State P) : Prop where
  renewed : ∀ p i, (s.pc p).file = some i → (s.file i).mtime = s.renewed p
  caching : ∀ p i retries mtime, s.pc p = .caching i retries mtime →
    ∃ j, s.path = some j ∧ (s.file j).mtime = mtime
  stale : ∀ p i retries, s.pc p = .stale i retries →
    ∃ maxAge j, o.maxAge = some maxAge ∧ s.path = some j ∧ (s.file j).mtime + maxAge ≤ s.now

omit [DecidableEq P] in
/-- A lock that is renewed in time is never the one that a thief removes. -/
theorem Leases.spared (hl : Leases o s) (hg : Leased o s a) : Spared s a := by
  intro p q i j retries _ hstale hq hpath
  obtain ⟨maxAge, k, hage, hk, hold⟩ := hl.stale p i retries hstale
  obtain rfl : k = j := by simpa [hk] using hpath
  have hfresh := hg.fresh q k maxAge hage hq
  have hmtime := hl.renewed q k (file_of_written (written_of_holds hq))
  omega

/-- Who is midway was so already, or has just looked. -/
theorem Effect.midway {q : P} (h : Effect o s a t) (hq : (t.pc q).midway = true) :
    t.pc q = s.pc q ∨ Quiet o s q (t.pc q) ∧ t.path = s.path ∧ t.file = s.file ∧ t.now = s.now := by
  cases h with
  | @quiet a p φ hφ =>
    by_cases heq : q = p
    · subst heq
      refine Or.inr ⟨?_, rfl, rfl, rfl⟩
      rwa [pc_go, if_pos rfl]
    · exact Or.inl (by simp [heq])
  | drop _ hφ =>
    simp only [pc_go] at hq ⊢
    split at hq
    · rcases hφ with rfl | rfl | ⟨_, _, rfl⟩ <;> cases hq
    · rename_i hne
      exact Or.inl (if_neg hne)
  | create | write | link | utime | steal | touch | make | unlock =>
    simp only [pc_go] at hq ⊢
    split at hq
    · cases hq
    · rename_i hne
      exact Or.inl (if_neg hne)
  | sweep | tick => exact Or.inl rfl

/-- While a process is midway, the lock it has looked at stays at the path, with its mtime. -/
theorem Leases.steady (hl : Leases o s) (hi : Inv o s) (hg : Leased o s a) (h : Effect o s a t)
    {q : P} {j : Nat} (hmid : (s.pc q).midway = true) (hsame : t.pc q = s.pc q)
    (hpath : s.path = some j) : t.path = some j ∧ (t.file j).mtime = (s.file j).mtime := by
  have hlt : j ≠ s.dir.used := Nat.ne_of_lt (s.dir.below hpath)
  have hundisturbed := fun p (ha : a.disturbs s = some p) => hg.undisturbed p q ha hmid
  constructor
  · rcases h.removed hpath with hstays | ⟨p, i, retries, rfl, hp, hout⟩ | ⟨p, i, rfl, _, hout⟩
    · exact hstays
    · obtain rfl := hundisturbed p (by simp [Label.disturbs, hp])
      rw [← hsame, hout] at hmid
      cases hmid
    · obtain rfl := hundisturbed p rfl
      rw [← hsame, hout] at hmid
      cases hmid
  · cases h with
    | create => simp [hlt]
    | make _ hnone =>
      rw [hpath] at hnone
      cases hnone
    | @write p i hp =>
      have hne : j ≠ i := fun heq => hi.unwritten p i hp (heq ▸ hpath)
      simp [hne]
    | @utime p i retries mtime k hp hk =>
      obtain ⟨k', hk', hmtime⟩ := hl.caching p i retries mtime hp
      obtain rfl : k = j := by simpa [hk] using hpath
      obtain rfl : k' = k := by simpa [hk'] using hk
      simp [hmtime]
    | touch hp _ =>
      obtain rfl := hundisturbed _ rfl
      rw [hp] at hmid
      cases hmid
    | _ => rfl

/-- `renewed` is the mtime of the file of a process. -/
theorem Leases.renewed_step (hl : Leases o s) (hi : Inv o s) (ho : Owned s) (h : Effect o s a t)
    {q : P} {i : Nat} (hq : (t.pc q).file = some i) : (t.file i).mtime = t.renewed q := by
  -- the file of a process that stays is not the one another step writes to
  have hold : (s.pc q).file = some i → i ≠ s.dir.used := fun h => Nat.ne_of_lt (hi.below q i h)
  cases h with
  | @quiet a p φ hφ =>
    rw [pc_go] at hq
    split at hq
    · rename_i heq
      subst heq
      exact hl.renewed q i (hφ.file i hq)
    · exact hl.renewed q i hq
  | @create p hp hnone =>
    by_cases heq : q = p
    · subst heq
      obtain rfl : s.dir.used = i := by simpa [Pc.file] using hq
      simp
    · have hfile : (s.pc q).file = some i := by simpa [heq] using hq
      simpa [heq, hold hfile] using hl.renewed q i hfile
  | @write p k hp =>
    by_cases heq : q = p
    · subst heq
      obtain rfl : k = i := by simpa [Pc.file] using hq
      simp
    · have hfile : (s.pc q).file = some i := by simpa [heq] using hq
      have hne : i ≠ k := fun hik => heq (hi.apart hfile (by rw [hp, hik]; rfl))
      simpa [heq, hne] using hl.renewed q i hfile
  | @utime p k retries mtime j hp hj =>
    obtain ⟨j', hj', hmtime⟩ := hl.caching p k retries mtime hp
    obtain rfl : j = j' := by simpa [hj] using hj'
    have hfile : (s.pc q).file = some i := by
      by_cases heq : q = p
      · subst heq
        rw [hp]
        simpa [Pc.file] using hq
      · simpa [heq] using hq
    have hrenewed : (s.file i).mtime = (s.go p (.ageing k retries)).renewed q :=
      hl.renewed q i hfile
    by_cases hij : i = j
    · subst hij
      simpa [hmtime] using hrenewed
    · simpa [hij] using hrenewed
  | @touch p k j hp hj =>
    obtain rfl : j = k := by simpa [hj] using ho p k (by rw [hp]; rfl)
    by_cases heq : q = p
    · subst heq
      obtain rfl : j = i := by simpa [Pc.file] using hq
      simp
    · have hfile : (s.pc q).file = some i := by simpa [heq] using hq
      have hne : i ≠ j := fun hij => heq (hi.apart hfile (by rw [hp, hij]; rfl))
      simpa [heq, hne] using hl.renewed q i hfile
  | @make p k hp hnone =>
    have hpath := ho p k (by rw [hp]; rfl)
    rw [hnone] at hpath
    cases hpath
  | @drop p φ _ hφ =>
    simp only [pc_go] at hq
    split at hq
    · rename_i heq
      subst heq
      rcases hφ with rfl | rfl | ⟨k, hk, rfl⟩
      · cases hq
      · cases hq
      · exact hl.renewed q i (by rw [hk]; exact hq)
    · exact hl.renewed q i hq
  | link hp _ | steal hp =>
    simp only [pc_go] at hq
    split at hq
    · rename_i heq
      subst heq
      exact hl.renewed q i (by rw [hp]; exact hq)
    · exact hl.renewed q i hq
  | unlock =>
    simp only [pc_go] at hq
    split at hq
    · cases hq
    · exact hl.renewed q i hq
  | sweep | tick => exact hl.renewed q i hq

theorem Effect.now (h : Effect o s a t) : s.now ≤ t.now := by
  cases h with
  | tick => exact Nat.le_succ _
  | _ => exact Nat.le_refl _

theorem Leases.step (hl : Leases o s) (hi : Inv o s) (ho : Owned s) (hg : Leased o s a)
    (h : Effect o s a t) : Leases o t where
  renewed := fun p i hp => hl.renewed_step hi ho h hp
  caching := by
    intro p i retries mtime hp
    rcases h.midway (by rw [hp]; rfl) with hsame | ⟨hquiet, hpath, hfile, _⟩
    · rw [hp] at hsame
      obtain ⟨j, hj, hmtime⟩ := hl.caching p i retries mtime hsame.symm
      obtain ⟨hj', hm⟩ := hl.steady hi hg h (by rw [← hsame]; rfl) (hp.trans hsame) hj
      exact ⟨j, hj', hm.trans hmtime⟩
    · rw [hpath, hfile]
      exact hquiet.caching i retries mtime hp
  stale := by
    intro p i retries hp
    rcases h.midway (by rw [hp]; rfl) with hsame | ⟨hquiet, hpath, hfile, hnow⟩
    · rw [hp] at hsame
      obtain ⟨maxAge, j, hage, hj, hold⟩ := hl.stale p i retries hsame.symm
      obtain ⟨hj', hm⟩ := hl.steady hi hg h (by rw [← hsame]; rfl) (hp.trans hsame) hj
      refine ⟨maxAge, j, hage, hj', ?_⟩
      have := h.now
      omega
    · rw [hpath, hfile, hnow]
      exact hquiet.stale i retries hp

omit [DecidableEq P] in
theorem Leases.initial (hpc : ∀ p, s.pc p = .out) : Leases o s where
  renewed := fun p i h => by
    rw [hpc] at h
    cases h
  caching := fun p i retries mtime h => by
    rw [hpc] at h
    cases h
  stale := fun p i retries h => by
    rw [hpc] at h
    cases h

/-- **Leases.**  With a `max_age`, on one clock, in any interleaving and with locks left behind by
    the dead: as long as every step is `Leased`, one process is in its block, and it has the file at
    the path. -/
theorem exclusive_of_leased (o : Options) (s : State P) (h : Reach Initial (step o) (Leased o) s)
    (p : P) (i : Nat) (hp : (s.pc p).holds = some i) :
    s.path = some i ∧ ∀ q j, (s.pc q).holds = some j → q = p := by
  obtain ⟨hi, ho, _⟩ : Inv o s ∧ Owned s ∧ Leases o s := by
    refine Reach.invariant (I := fun s => Inv o s ∧ Owned s ∧ Leases o s)
      (fun s hs => ⟨Inv.initial hs, Owned.initial hs.1, Leases.initial hs.1⟩) ?_ h
    intro s a t ⟨hi, ho, hl⟩ hg hst
    have he := step_effect hst
    exact ⟨hi.step he, ho.step hi (hl.spared hg) he, hl.step hi ho hg he⟩
  exact ⟨ho p i hp, fun q j hq => ho.exclusive hi hq hp⟩

end

/-- The lease of everyone in its block. -/
def freshTest (s : State Bool) (_ : Label Bool) : Bool :=
  decide (∀ p, (s.pc p).holds.isSome = true → s.now < s.renewed p + 3)

def undisturbedTest (s : State Bool) (a : Label Bool) : Bool :=
  decide (∀ p q, a.disturbs s = some p → (s.pc q).midway = true → q = p)

theorem fresh_of_test {s : State Bool} {a : Label Bool} (h : freshTest s a = true) (p : Bool)
    (i maxAge : Nat) (hage : short.maxAge = some maxAge) (hp : (s.pc p).holds = some i) :
    s.now < s.renewed p + maxAge := by
  obtain rfl : 3 = maxAge := Option.some.inj hage
  exact of_decide_eq_true h p (by rw [hp]; rfl)

/-- The first process steals the abandoned lock, and a second one waits while the first renews it. -/
theorem lease_is_kept : ∃ s, Reach Initial (step short) (Leased short) s ∧
    s.pc true = .linking 2 0 1 ∧ (s.pc false).holds = some 1 ∧ s.path = some 1 ∧
    ∀ q j, (s.pc q).holds = some j → q = false := by
  obtain ⟨s, hs, hobs⟩ : ∃ s,
      exec (checked (step short) fun s a => freshTest s a && undisturbedTest s a)
        (.call false :: runs false 10 ++ .call true :: runs true 2 ++ [.tick, .tick] ++
          [.touch false, .verify false, .tick] ++ runs true 4) abandoned = some s ∧
      decide (s.pc true = .linking 2 0 1 ∧ (s.pc false).holds = some 1) = true :=
    exists_of_any (by decide)
  obtain ⟨h2, h1⟩ := of_decide_eq_true hobs
  have hgood : ∀ s a, (freshTest s a && undisturbedTest s a) = true → Leased short s a := by
    intro s a hq
    obtain ⟨hfresh, hund⟩ := Bool.and_eq_true_iff.mp hq
    exact ⟨fresh_of_test hfresh, of_decide_eq_true hund⟩
  have hr : Reach Initial (step short) (Leased short) s :=
    (Reach.checked (fun a _ s => hgood s a) (Reach.init initial_abandoned) hs).1
  exact ⟨s, hr, h2, h1, exclusive_of_leased short s hr false 1 h1⟩

/-- A lock that is not renewed in time is stolen. -/
theorem late_renewal : ∃ s, Reach Initial (step short)
      (fun s a => ∀ p q, a.disturbs s = some p → (s.pc q).midway = true → q = p) s ∧
    (s.pc false).holds = some 1 ∧ (s.pc true).holds = some 2 := by
  obtain ⟨s, hs, hobs⟩ : ∃ s, exec (checked (step short) undisturbedTest)
        (.call false :: runs false 10 ++ .call true :: runs true 2 ++ [.tick, .tick, .tick] ++
          runs true 7) abandoned = some s ∧
      decide ((s.pc false).holds = some 1 ∧ (s.pc true).holds = some 2) = true :=
    exists_of_any (by decide)
  exact ⟨s, (Reach.checked (fun _ _ _ hq => of_decide_eq_true hq) (Reach.init initial_abandoned)
    hs).1, of_decide_eq_true hobs⟩

/-- The mtime of before the touch, written back by `uncache`, makes a lock stale that was touched one
    unit ago. -/
theorem old_mtime_comes_back : ∃ s, Reach Initial (step short)
      (fun s _ => ∀ p i maxAge, short.maxAge = some maxAge → (s.pc p).holds = some i →
        s.now < s.renewed p + maxAge) s ∧
    (s.pc false).holds = some 1 ∧ s.now = s.renewed false + 1 ∧ (s.pc true).holds = some 2 := by
  obtain ⟨s, hs, hobs⟩ : ∃ s, exec (checked (step short) freshTest)
        (.call false :: runs false 10 ++ .tick :: .call true :: runs true 4 ++
          [.tick, .touch false, .verify false] ++ runs true 1 ++ .tick :: runs true 4)
        abandoned = some s ∧
      decide ((s.pc false).holds = some 1 ∧ s.now = s.renewed false + 1 ∧
        (s.pc true).holds = some 2) = true :=
    exists_of_any (by decide)
  exact ⟨s, (Reach.checked (fun _ _ _ hq => fresh_of_test hq) (Reach.init initial_abandoned)
    hs).1, of_decide_eq_true hobs⟩

/-- Two processes find the abandoned lock stale; the second removes the lock of the first. -/
theorem second_thief : ∃ s, Reach Initial (step short)
      (fun s _ => ∀ p i maxAge, short.maxAge = some maxAge → (s.pc p).holds = some i →
        s.now < s.renewed p + maxAge) s ∧
    (s.pc false).holds = some 1 ∧ (s.pc true).holds = some 2 := by
  obtain ⟨s, hs, hobs⟩ : ∃ s, exec (checked (step short) freshTest)
        (.call false :: runs false 6 ++ .call true :: runs true 6 ++ runs false 4 ++ runs true 3)
        abandoned = some s ∧
      decide ((s.pc false).holds = some 1 ∧ (s.pc true).holds = some 2) = true :=
    exists_of_any (by decide)
  exact ⟨s, (Reach.checked (fun _ _ _ hq => fresh_of_test hq) (Reach.init initial_abandoned)
    hs).1, of_decide_eq_true hobs⟩

section
variable [DecidableEq P]

/-! ## A process that is left alone -/

@[simp] theorem path_go (s : State P) (p : P) (φ : Pc) : (s.go p φ).path = s.path := rfl

@[simp] theorem file_go (s : State P) (p : P) (φ : Pc) : (s.go p φ).file = s.file := rfl

@[simp] theorem now_go (s : State P) (p : P) (φ : Pc) : (s.go p φ).now = s.now := rfl

@[simp] theorem go_go (s : State P) (p : P) (φ ψ : Pc) : (s.go p φ).go p ψ = s.go p ψ := by
  simp [State.go]

/-- `n` operations of `p`, and of nobody else. -/
def Alone (o : Options) (p : P) (n : Nat) (s t : State P) : Prop :=
  exec (step o) (List.replicate n (.run p)) s = some t

theorem Alone.one {p : P} (h : runStep o s p = some t) : Alone o p 1 s t := by
  simp [Alone, exec, step, h]

theorem Alone.trans {p : P} {m n : Nat} : ∀ {s t u : State P}, Alone o p m s t → Alone o p n t u →
    Alone o p (m + n) s u := by
  induction m with
  | zero =>
    intro s t u h1 h2
    obtain rfl : s = t := by simpa [Alone, exec] using h1
    rwa [Nat.zero_add]
  | succ m ih =>
    intro s t u h1 h2
    obtain ⟨v, hv, hvt⟩ := Option.bind_eq_some_iff.mp h1
    rw [Nat.succ_add]
    exact Option.bind_eq_some_iff.mpr ⟨v, hv, ih hvt h2⟩

theorem run_creating {p : P} (hp : s.pc p = .creating) (hentry : s.dir.entry (.tmp p) = none) :
    ∃ t, runStep o s p = some t ∧ t.pc p = .writing s.dir.used ∧ t.dir = s.dir.add (.tmp p) ∧
      t.now = s.now ∧ ∀ j, j ≠ s.dir.used → t.file j = s.file j := by
  simp only [runStep, hp, create_free hentry]
  refine ⟨_, rfl, by simp, rfl, rfl, ?_⟩
  intro j hj
  simp [hj]

theorem run_writing {p : P} {i : Nat} (hp : s.pc p = .writing i) :
    ∃ t, runStep o s p = some t ∧ t.pc p = .linking i 0 0 ∧ t.dir = s.dir ∧
      t.now = s.now ∧ ∀ j, j ≠ i → t.file j = s.file j := by
  simp only [runStep, hp]
  split
  · exact ⟨_, rfl, by simp, rfl, rfl, fun _ _ => rfl⟩
  · refine ⟨_, rfl, by simp, rfl, rfl, ?_⟩
    intro j hj
    simp [hj]

theorem prepares {p : P} (hp : s.pc p = .creating) (hentry : s.dir.entry (.tmp p) = none) :
    ∃ t i, Alone o p 2 s t ∧ t.pc p = .linking i 0 0 ∧ t.dir.entry (.tmp p) = some i ∧
      t.path = s.path ∧ t.now = s.now ∧ ∀ j, s.path = some j → t.file j = s.file j := by
  obtain ⟨u, hu, hpu, hdir, hnow, hfile⟩ := run_creating (o := o) hp hentry
  obtain ⟨t, ht, hpt, hdir', hnow', hfile'⟩ := run_writing (o := o) hpu
  refine ⟨t, s.dir.used, (Alone.one hu).trans (Alone.one ht), hpt, ?_, ?_, hnow'.trans hnow, ?_⟩
  · simp [hdir', hdir]
  · simp [State.path, hdir', hdir]
  · intro j hj
    have hne : j ≠ s.dir.used := Nat.ne_of_lt (s.dir.below hj)
    rw [hfile' j hne, hfile j hne]

/-- With the path free the link is made, and found to be made. -/
theorem acquires {p : P} {i polls retries : Nat} (hp : s.pc p = .linking i polls retries)
    (hentry : s.dir.entry (.tmp p) = some i) (hfree : s.path = none) :
    ∃ t, Alone o p 3 s t ∧ t.pc p = .holding i ∧ t.path = some i := by
  obtain ⟨d, hd⟩ := link_free hentry hfree
  obtain ⟨j, hj, _, _, hdir⟩ := link_ok hd
  obtain rfl : j = i := by simpa [hentry] using hj.symm
  have h1 : runStep o s p = some { s.go p (.linked j polls retries) with dir := d } := by
    simp [runStep, hp, hd]
  have h2 : runStep o { s.go p (.linked j polls retries) with dir := d } p =
      some { s.go p (.locked j) with dir := d } := by
    simp [runStep, State.path, hdir, State.go]
  have h3 : runStep o { s.go p (.locked j) with dir := d } p =
      some { s.go p (.holding j) with dir := d.unlink (.tmp p) } := by
    simp [runStep, State.go]
  exact ⟨_, ((Alone.one h1).trans (Alone.one h2)).trans (Alone.one h3), by simp,
    by simp [State.path, hdir]⟩

/-- With the path taken the polls are used up. -/
theorem polls_out {p : P} {i j retries : Nat} (k : Nat) : ∀ {s : State P} {polls : Nat},
    s.pc p = .linking i polls retries → s.dir.entry (.tmp p) = some i → s.path = some j →
    o.pollRetries ≤ polls + k →
    ∃ n, n ≤ k + 1 ∧ Alone o p n s (s.go p (.judging i (retries + 1))) := by
  induction k with
  | zero =>
    intro s polls hp hentry hpath hle
    refine ⟨1, Nat.le_refl 1, Alone.one ?_⟩
    simp [runStep, hp, link_taken hentry hpath, afterPoll, show o.pollRetries ≤ polls + 1 by omega]
  | succ k ih =>
    intro s polls hp hentry hpath hle
    by_cases hlast : o.pollRetries ≤ polls + 1
    · refine ⟨1, by omega, Alone.one ?_⟩
      simp [runStep, hp, link_taken hentry hpath, afterPoll, hlast]
    · have h1 : runStep o s p = some (s.go p (.linking i (polls + 1) retries)) := by
        simp [runStep, hp, link_taken hentry hpath, afterPoll, hlast]
      obtain ⟨n, hn, hrest⟩ := ih (s := s.go p (.linking i (polls + 1) retries))
        (pc_go s p p _ |>.trans (if_pos rfl)) hentry hpath (by omega)
      rw [go_go] at hrest
      exact ⟨1 + n, by omega, (Alone.one h1).trans hrest⟩

/-- A stale lock is found stale, `uncache` or not, and removed. -/
theorem steals {p : P} {i j retries maxAge : Nat} (hage : o.maxAge = some maxAge)
    (hp : s.pc p = .judging i retries) (hentry : s.dir.entry (.tmp p) = some i)
    (hpath : s.path = some j) (hstale : (s.file j).mtime + maxAge ≤ s.now) :
    ∃ t, Alone o p 4 s t ∧ t.pc p = .linking i 0 retries ∧ t.dir.entry (.tmp p) = some i ∧
      t.path = none := by
  have h1 : runStep o s p = some (s.go p (.caching i retries (s.file j).mtime)) := by
    simp [runStep, hp, afterStat, hage, hpath]
  have h2 : runStep o (s.go p (.caching i retries (s.file j).mtime)) p =
      some (s.go p (.ageing i retries)) := by
    simp only [runStep, pc_go, path_go, hpath, if_pos]
    simp [State.go]
  have h3 : runStep o (s.go p (.ageing i retries)) p = some (s.go p (.stale i retries)) := by
    simp only [runStep, pc_go, if_pos]
    simp [afterAge, hage, hpath, Nat.not_lt.mpr hstale]
  have h4 : runStep o (s.go p (.stale i retries)) p =
      some { s.go p (.linking i 0 retries) with dir := s.dir.unlink .lock } := by
    simp [runStep, State.go]
  exact ⟨_, (((Alone.one h1).trans (Alone.one h2)).trans (Alone.one h3)).trans (Alone.one h4),
    by simp, by simpa using hentry, by simp [State.path]⟩

end

end RubyQueue.Lockfile
