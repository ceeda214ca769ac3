/-
  `QDB#aquire_lock`: who has the lock of a queue, and when is the lock taken for dead?

  A process opens the lock file and polls for a record lock on it.  While it has the lock a process of
  its own, the refresher, touches the file.  Who has polled in vain looks at the mtime; when the file is
  stale, and after an `uncache` as well, it calls `lockd_recover`, which puts a copy of the file at the
  path.  Whoever had a lock on the old file is still in its block then, and the next process locks the
  new one.

  * `exclusive_of_renewed`    — as long as the refreshers touch the file in time, and no block opens
                                and closes the lock file, nobody recovers, and a writer is alone in
                                its block, with the file that is at the path;
  * `stuck_lock_is_recovered` — a lock that nobody renews does not stop the queue: who is left alone
                                with a stale lock file has the lock after 51 steps of this model, if
                                the recovery is attempted and succeeds.

  Without the renewals two processes can write at once (`two_writers`), and a renewal that comes in the
  middle of an `uncache` is written over (`renewal_written_over`).  The blocks of `rotate`, of `backup`
  and of the last resort of `snapshot` copy the lock file, and when they close it their lock is gone
  (`copied_lock_is_lost`).

  The times `mtime` and `now` are those of the file server.  `lockd_recover` is one operation here;
  `Recovery` has it step by step, beside a single transaction.
-/
import RubyQueue.Base.RecordLock
import RubyQueue.Base.Run

namespace RubyQueue.AquireLock

open RubyQueue.Run RubyQueue.RecordLock

/-! ## Processes and the lock file -/

/-- How a queue is opened, and the clocks: how far that of a process is ahead of the file server's, and
    how far the one is by which its refresher touches the file. -/
structure Config (P : Type) where
  lockfileStaleAge : Nat
  attemptLockdRecovery : Bool
  ahead : P → Int
  stamps : P → Int

/-- `42.times do`. -/
def polls : Nat := 42

/-- Where a process is.  `k` says whether it reads or writes, and `file` is the lock file it has
    open. -/
inductive Pc
  | out
  | opening (k : Kind)
  -- refused `n` times
  | polling (k : Kind) (file n : Nat)
  -- all polls are used up; about to stat
  | refused (k : Kind) (file : Nat)
  -- `stale`; in `uncache`, about to stat, and with the mtime it has read
  | doubting (k : Kind) (file : Nat)
  | caching (k : Kind) (file : Nat) (mtime : Int)
  -- about to stat again
  | confirming (k : Kind) (file : Nat)
  | recovering (k : Kind) (file : Nat)
  -- `sleep sc`, after which the file is closed
  | waiting (k : Kind) (file : Nat)
  -- in the block
  | holding (k : Kind) (file : Nat)
  | dead
deriving DecidableEq, Repr

/-- A refresher: there is none, it is about to touch the file, or it sleeps. -/
inductive Refresher
  | none
  | due
  | asleep
deriving DecidableEq, Repr

/-- The lock file at the path, the mtimes of the files there have been, the locks on them and the
    processes.  `polled` is when a process was last refused, and `renewed` when its refresher has last
    touched the file since the lock was granted; the program looks at neither. -/
structure State (P : Type) where
  path : Option Nat
  used : Nat
  mtime : Nat → Int
  locks : Locks P Nat
  pc : P → Pc
  refresher : P → Refresher
  now : Nat
  polled : P → Nat
  renewed : P → Option Nat

inductive Label (P : Type)
  | call (p : P) (k : Kind)
  -- the next operation of `p`
  | run (p : P)
  -- an operation of `uncache` raises
  | skip (p : P)
  -- `lockd_recover` returns; `swapped`: there is a new file at the path
  | recover (p : P) (swapped : Bool)
  -- the block of `p` has opened the lock file once more, and closes it
  | close (p : P)
  -- `p` leaves `aquire_lock`: the block is over, or something raised
  | leave (p : P)
  -- the refresher of `p` touches the file, and wakes up
  | touch (p : P)
  | wake (p : P)
  -- `stuck`: the lock daemon does not hear of it
  | kill (p : P) (stuck : Bool)
  | tick
deriving DecidableEq, Repr

variable {P : Type} [DecidableEq P]

/-- `p` goes on to `φ`. -/
def State.go (s : State P) (p : P) (φ : Pc) : State P := { s with pc := Function.update s.pc p φ }

/-- A new file at the path. -/
def State.create (s : State P) : State P :=
  { s with path := some s.used, used := s.used + 1, mtime := Function.update s.mtime s.used s.now }

/-- `mtime < (Time::now - @aquire_lock_lockfile_stale_age)`. -/
def stale (cfg : Config P) (s : State P) (p : P) (file : Nat) : Bool :=
  decide (s.mtime file < s.now + cfg.ahead p - cfg.lockfileStaleAge)

/-- The next operation of a process in `aquire_lock`. -/
def runStep (cfg : Config P) (s : State P) (p : P) : Option (State P) :=
  match s.pc p with
  | .opening k =>
    -- `open(@lockfile, 'a+')`
    match s.path with
    | none => some (s.create.go p (.polling k s.used 0))
    | some i => some (s.go p (.polling k i 0))
  | .polling k i n =>
    match s.locks.setlk i p k with
    | some l =>
      some { s.go p (.holding k i) with
        locks := l
        refresher := Function.update s.refresher p .due
        renewed := Function.update s.renewed p none }
    | none =>
      some { s.go p (if n + 1 = polls then .refused k i else .polling k i (n + 1)) with
        polled := Function.update s.polled p s.now }
  | .refused k i =>
    match s.path with
    | none => some (s.go p .out)
    | some j => some (s.go p (if stale cfg s p j then .doubting k i else .waiting k i))
  | .doubting k i =>
    match s.path with
    | none => some (s.go p (.confirming k i))
    | some j => some (s.go p (.caching k i (s.mtime j)))
  | .caching k i mtime =>
    -- `File::utime stat.atime, stat.mtime, path`
    match s.path with
    | none => some (s.go p (.confirming k i))
    | some j => some { s.go p (.confirming k i) with mtime := Function.update s.mtime j mtime }
  | .confirming k i =>
    match s.path with
    | none => some (s.go p .out)
    | some j =>
      some (s.go p (if stale cfg s p j && cfg.attemptLockdRecovery then .recovering k i
        else .waiting k i))
  | .waiting k i => some { s.go p (.opening k) with locks := s.locks.drop i p }
  | _ => none

/-- The file a process has open. -/
def Pc.file : Pc → Option Nat
  | .polling _ i _ | .refused _ i | .doubting _ i | .caching _ i _ | .confirming _ i => some i
  | .recovering _ i | .waiting _ i | .holding _ i => some i
  | _ => none

/-- The refresher of `p` has touched the file, and goes to sleep. -/
def State.renew (s : State P) (p : P) : State P :=
  { s with
    refresher := Function.update s.refresher p .asleep
    renewed := Function.update s.renewed p (some s.now) }

/-- `touch`, which makes the file when there is none. -/
def touchStep (cfg : Config P) (s : State P) (p : P) : Option (State P) :=
  match s.refresher p, s.path with
  | .due, some j => some { s.renew p with mtime := Function.update s.mtime j (s.now + cfg.stamps p) }
  | .due, none => some (s.renew p).create
  | _, _ => none

/-- `Process::kill 0, ppid` raises when the process is gone, and the refresher ends. -/
def wakeStep (s : State P) (p : P) : Option (State P) :=
  match s.refresher p with
  | .asleep =>
    some { s with
      refresher := Function.update s.refresher p (if s.pc p = .dead then .none else .due) }
  | _ => none

def step (cfg : Config P) (s : State P) : Label P → Option (State P)
  | .call p k => if s.pc p = .out then some (s.go p (.opening k)) else none
  | .run p => runStep cfg s p
  | .skip p =>
    match s.pc p with
    | .doubting k i | .caching k i _ => some (s.go p (.confirming k i))
    | _ => none
  | .recover p swapped =>
    match s.pc p with
    | .recovering k i =>
      if swapped then some (s.create.go p (.waiting k i)) else some (s.go p (.waiting k i))
    | _ => none
  | .close p =>
    match s.pc p with
    | .holding _ _ => some { s with locks := s.path.elim s.locks fun j => s.locks.drop j p }
    | _ => none
  | .leave p =>
    if s.pc p = .out ∨ s.pc p = .dead then none
    else
      some { s.go p .out with
        locks := (s.pc p).file.elim s.locks fun i => s.locks.drop i p
        refresher := Function.update s.refresher p .none }
  | .touch p => touchStep cfg s p
  | .wake p => wakeStep s p
  | .kill p stuck =>
    some { s.go p .dead with locks := if stuck then s.locks else s.locks.dropAll p }
  | .tick => some { s with now := s.now + 1 }

/-- Nobody is in `aquire_lock`, and nobody has a lock; the file may be of any age, or missing. -/
def Initial (s : State P) : Prop :=
  (∀ p, s.pc p = .out ∧ s.refresher p = .none ∧ s.renewed p = none) ∧ (∀ i, s.locks.on i = []) ∧
    ∀ i, s.path = some i → i < s.used

/-! ## Renewed in time -/

/-- The condition.  When a process has polled in vain, one of those that have the lock has renewed it
    within `delay`; and it looks at the file within `lag` of its last poll.  No block closes the lock
    file. -/
structure Renewed (delay lag : Nat) (s : State P) (a : Label P) : Prop where
  holder : ∀ p k i, a = .run p → s.pc p = .polling k i (polls - 1) → s.locks.setlk i p k = none →
    ∃ q k' t, (q, k') ∈ s.locks.on i ∧ s.renewed q = some t ∧ s.now ≤ t + delay
  prompt : ∀ p k i, a = .run p → s.pc p = .refused k i → s.now ≤ s.polled p + lag
  kept : ∀ p, a ≠ .close p

/-- The file was touched at `t` or later, by whichever clock. -/
def Touched (cfg : Config P) (s : State P) (file t : Nat) : Prop :=
  ∃ q t', t ≤ t' ∧ t' ≤ s.now ∧ s.mtime file = t' + cfg.stamps q

/-- On the way from the first stat to the recovery. -/
def Pc.doubts : Pc → Bool
  | .doubting _ _ | .caching _ _ _ | .confirming _ _ | .recovering _ _ => true
  | _ => false

/-- What is known of a process that is at `φ`: it has the file at the path open; in the block it has
    the lock on it; it does not doubt that the lock is alive; and when it is about to stat the file,
    it has been refused not long after the file was touched. -/
structure Sound (cfg : Config P) (delay : Nat) (s : State P) (p : P) (φ : Pc) : Prop where
  file : ∀ i, φ.file = some i → s.path = some i
  holds : ∀ k i, φ = .holding k i → (p, k) ∈ s.locks.on i
  calm : φ.doubts = false
  refused : ∀ k i, φ = .refused k i → ∃ t, s.polled p ≤ t + delay ∧ Touched cfg s i t

structure Inv (cfg : Config P) (delay : Nat) (s : State P) : Prop where
  sound : ∀ p, Sound cfg delay s p (s.pc p)
  renewed : ∀ q t, s.renewed q = some t → ∃ j, s.path = some j ∧ Touched cfg s j t
  refresher : ∀ q, s.refresher q ≠ .none → ∃ j, s.path = some j

section Sound

omit [DecidableEq P]

variable {cfg : Config P} {delay lag : Nat} {s t : State P} {p : P} {φ : Pc}

theorem Touched.mono {j x : Nat} (h : Touched cfg s j x) (hmtime : t.mtime j = s.mtime j)
    (hnow : s.now ≤ t.now) : Touched cfg t j x := by
  obtain ⟨q, t', hx, ht', hm⟩ := h
  exact ⟨q, t', hx, Nat.le_trans ht' hnow, hmtime.trans hm⟩

/-- A process that is where it was stays sound. -/
theorem Sound.mono (h : Sound cfg delay s p φ) (hpath : t.path = s.path)
    (hlocks : ∀ k i, (p, k) ∈ s.locks.on i → (p, k) ∈ t.locks.on i)
    (hpolled : t.polled p = s.polled p)
    (htouched : ∀ j x, s.path = some j → Touched cfg s j x → Touched cfg t j x) :
    Sound cfg delay t p φ := by
  refine ⟨fun i hi => hpath.trans (h.file i hi), fun k i hi => hlocks k i (h.holds k i hi), h.calm,
    fun k i hi => ?_⟩
  obtain ⟨x, hx, hxt⟩ := h.refused k i hi
  exact ⟨x, hpolled ▸ hx, htouched i x (h.file i (by rw [hi]; rfl)) hxt⟩

/-- A place where nothing is asked of the process but its file. -/
theorem Sound.of_file (hfile : ∀ i, φ.file = some i → s.path = some i)
    (hhold : ∀ k i, φ ≠ .holding k i) (hcalm : φ.doubts = false)
    (hrefused : ∀ k i, φ ≠ .refused k i) : Sound cfg delay s p φ :=
  ⟨hfile, fun k i hi => absurd hi (hhold k i), hcalm, fun k i hi => absurd hi (hrefused k i)⟩

/-- A place without a file. -/
theorem Sound.of_none (hnone : φ.file = none) (hcalm : φ.doubts = false) :
    Sound cfg delay s p φ := by
  refine Sound.of_file (fun i hi => ?_) (fun k i hi => ?_) hcalm (fun k i hi => ?_)
  · rw [hnone] at hi
    cases hi
  · rw [hi] at hnone
    cases hnone
  · rw [hi] at hnone
    cases hnone

/-- Without a file at the path nobody has one open. -/
theorem Sound.pathless (h : Sound cfg delay s p φ) (hpath : s.path = none) : φ.file = none := by
  cases hf : φ.file with
  | none => rfl
  | some i =>
    have hi := h.file i hf
    rw [hpath] at hi
    cases hi

/-- **The verdict.**  Who was refused not long after the file was touched does not find it stale. -/
theorem not_stale (hskew : ∀ p q, cfg.ahead p - cfg.stamps q + delay + lag ≤ cfg.lockfileStaleAge)
    {x i : Nat} (hx : s.polled p ≤ x + delay) (ht : Touched cfg s i x)
    (hprompt : s.now ≤ s.polled p + lag) : stale cfg s p i = false := by
  obtain ⟨q, x', hxx, -, hm⟩ := ht
  have := hskew p q
  simp only [stale, decide_eq_false_iff_not]
  omega

theorem Inv.init (h : Initial s) : Inv cfg delay s := by
  obtain ⟨hpc, -, -⟩ := h
  refine ⟨fun p => ?_, fun q t hq => ?_, fun q hq => absurd (hpc q).2.1 hq⟩
  · rw [(hpc p).1]
    exact Sound.of_none rfl rfl
  · rw [(hpc q).2.2] at hq
    cases hq

end Sound

/-! ## What keeps the invariant -/

section Steps

variable {cfg : Config P} {delay lag : Nat} {s t : State P} {a : Label P} {p q : P} {φ : Pc}

omit [DecidableEq P] in
/-- A move of `p` that touches no file: the others are as they were. -/
theorem Inv.move (h : Inv cfg delay s) (hpath : t.path = s.path) (hmtime : t.mtime = s.mtime)
    (hnow : s.now ≤ t.now)
    (hothers : ∀ q, q ≠ p → t.pc q = s.pc q ∧ t.polled q = s.polled q ∧
      ∀ k i, (q, k) ∈ s.locks.on i → (q, k) ∈ t.locks.on i)
    (hrenewed : ∀ q x, t.renewed q = some x → s.renewed q = some x)
    (hrefresher : ∀ q, t.refresher q ≠ .none → ∃ j, s.path = some j)
    (hp : Sound cfg delay t p (t.pc p)) : Inv cfg delay t := by
  refine ⟨fun q => ?_, fun q x hq => ?_, fun q hq => hpath ▸ hrefresher q hq⟩
  · by_cases hqp : q = p
    · rw [hqp]
      exact hp
    · obtain ⟨hpc, hpolled, hlocks⟩ := hothers q hqp
      rw [hpc]
      exact (h.sound q).mono hpath hlocks hpolled fun j x _ hx => hx.mono (by rw [hmtime]) hnow
  · obtain ⟨j, hj, hx⟩ := h.renewed q x (hrenewed q x hq)
    exact ⟨j, hpath.trans hj, hx.mono (by rw [hmtime]) hnow⟩

theorem pc_go (s : State P) (p : P) (φ : Pc) : (s.go p φ).pc p = φ := Function.update_self ..

theorem pc_go_ne (s : State P) {p q : P} (φ : Pc) (h : q ≠ p) : (s.go p φ).pc q = s.pc q :=
  Function.update_of_ne h _ _

/-- Only the place of `p` changes. -/
theorem Inv.go (h : Inv cfg delay s) (hp : Sound cfg delay s p φ) : Inv cfg delay (s.go p φ) := by
  refine h.move rfl rfl (Nat.le_refl _) (fun q hq => ⟨pc_go_ne s φ hq, rfl, fun _ _ hk => hk⟩)
    (fun _ _ hx => hx) h.refresher ?_
  rw [pc_go]
  exact hp.mono rfl (fun _ _ hk => hk) rfl fun _ _ _ hx => hx.mono rfl (Nat.le_refl _)

/-- Locks of others stay when `p` is granted one, … -/
theorem kept_of_setlk {l : Locks P Nat} {k : Kind} {i : Nat} (h : s.locks.setlk i p k = some l)
    (hq : q ≠ p) {k' : Kind} {j : Nat} (hk : (q, k') ∈ s.locks.on j) : (q, k') ∈ l.on j := by
  rw [(setlk_some h).2 j]
  by_cases hj : j = i
  · subst hj
    rw [if_pos rfl]
    exact List.mem_cons_of_mem _ (mem_others.mpr ⟨hk, hq⟩)
  · rwa [if_neg hj]

/-- … and when it drops one. -/
theorem kept_of_drop {i : Nat} (hq : q ≠ p) {k : Kind} {j : Nat} (hk : (q, k) ∈ s.locks.on j) :
    (q, k) ∈ (s.locks.drop i p).on j := by
  rw [on_drop]
  by_cases hj : j = i
  · subst hj
    rw [if_pos rfl]
    exact mem_others.mpr ⟨hk, hq⟩
  · rwa [if_neg hj]

/-- The first to open the path makes the file. -/
theorem Inv.opened (h : Inv cfg delay s) (hpath : s.path = none) (k : Kind) :
    Inv cfg delay (s.create.go p (.polling k s.used 0)) := by
  refine ⟨fun q => ?_, fun q x hq => ?_, fun q _ => ⟨s.used, rfl⟩⟩
  · by_cases hqp : q = p
    · rw [hqp, pc_go]
      exact Sound.of_file (fun i hi => hi) (fun _ _ hh => Pc.noConfusion hh) rfl
        (fun _ _ hh => Pc.noConfusion hh)
    · rw [pc_go_ne _ _ hqp]
      exact Sound.of_none ((h.sound q).pathless hpath) (h.sound q).calm
  · obtain ⟨j, hj, -⟩ := h.renewed q x hq
    rw [hpath] at hj
    cases hj

/-- `p` is granted the lock. -/
theorem Inv.granted (h : Inv cfg delay s) {k : Kind} {i n : Nat} (hp : s.pc p = .polling k i n)
    {l : Locks P Nat} (hl : s.locks.setlk i p k = some l) :
    Inv cfg delay { s.go p (.holding k i) with
      locks := l
      refresher := Function.update s.refresher p .due
      renewed := Function.update s.renewed p none } := by
  have hpath : s.path = some i := (h.sound p).file i (by rw [hp]; rfl)
  refine h.move rfl rfl (Nat.le_refl _)
    (fun q hq => ⟨pc_go_ne s _ hq, rfl, fun _ _ hk => kept_of_setlk hl hq hk⟩)
    (fun q x hx => ?_) (fun q _ => ⟨i, hpath⟩) ?_
  · by_cases hqp : q = p
    · simp [hqp] at hx
    · simpa [hqp] using hx
  · show Sound cfg delay _ p ((s.go p (.holding k i)).pc p)
    rw [pc_go]
    refine ⟨fun j hj => ?_, fun k' j hj => ?_, rfl, fun k' j hj => ?_⟩
    · cases hj
      exact hpath
    · cases hj
      show (p, k) ∈ l.on i
      rw [(setlk_some hl).2 i, if_pos rfl]
      exact List.mem_cons_self
    · cases hj

/-- `p` is refused; for the last time only when the lock has been renewed. -/
theorem Inv.denied (h : Inv cfg delay s) {k : Kind} {i n : Nat} (hp : s.pc p = .polling k i n)
    (hg : Renewed delay lag s (.run p)) (hl : s.locks.setlk i p k = none) :
    Inv cfg delay { s.go p (if n + 1 = polls then .refused k i else .polling k i (n + 1)) with
      polled := Function.update s.polled p s.now } := by
  have hpath : s.path = some i := (h.sound p).file i (by rw [hp]; rfl)
  refine h.move rfl rfl (Nat.le_refl _)
    (fun q hq => ⟨pc_go_ne s _ hq, Function.update_of_ne hq _ _, fun _ _ hk => hk⟩)
    (fun _ _ hx => hx) h.refresher ?_
  show Sound cfg delay _ p ((s.go p _).pc p)
  rw [pc_go]
  by_cases hn : n + 1 = polls
  · rw [if_pos hn]
    refine ⟨fun j hj => ?_, fun k' j hj => ?_, rfl, fun k' j hj => ?_⟩
    · cases hj
      exact hpath
    · cases hj
    · cases hj
      obtain ⟨q, k', x, -, hq, hnow⟩ := hg.holder p k i rfl (by rw [hp, ← hn]; rfl) hl
      obtain ⟨j, hj, htouched⟩ := h.renewed q x hq
      rw [hpath] at hj
      cases hj
      refine ⟨x, ?_, htouched.mono rfl (Nat.le_refl _)⟩
      show Function.update s.polled p s.now p ≤ x + delay
      rwa [Function.update_self]
  · rw [if_neg hn]
    refine Sound.of_file (fun j hj => ?_) (fun _ _ hh => Pc.noConfusion hh) rfl
      (fun _ _ hh => Pc.noConfusion hh)
    cases hj
    exact hpath

/-- **The operations of a process.**  The first stat finds the file fresh, so nothing after it is
    reached. -/
theorem Inv.run (hskew : ∀ p q, cfg.ahead p - cfg.stamps q + delay + lag ≤ cfg.lockfileStaleAge)
    (h : Inv cfg delay s) (hg : Renewed delay lag s (.run p)) (hst : runStep cfg s p = some t) :
    Inv cfg delay t := by
  have hp := h.sound p
  unfold runStep at hst
  cases hpc : s.pc p with
  | opening k =>
    rw [hpc] at hst
    simp only at hst
    split at hst
    · rename_i hpath
      cases hst
      exact h.opened hpath k
    · rename_i i hpath
      cases hst
      refine h.go (Sound.of_file (fun j hj => ?_) (fun _ _ hh => Pc.noConfusion hh) rfl
        (fun _ _ hh => Pc.noConfusion hh))
      cases hj
      exact hpath
  | polling k i n =>
    rw [hpc] at hst
    simp only at hst
    split at hst
    · rename_i l hl
      cases hst
      exact h.granted hpc hl
    · rename_i hl
      cases hst
      exact h.denied hpc hg hl
  | refused k i =>
    have hpath : s.path = some i := hp.file i (by rw [hpc]; rfl)
    obtain ⟨x, hx, htouched⟩ := hp.refused k i hpc
    have hfresh := not_stale hskew hx htouched (hg.prompt p k i rfl hpc)
    rw [hpc, hpath] at hst
    simp only [hfresh] at hst
    cases hst
    refine h.go (Sound.of_file (fun j hj => ?_) (fun _ _ hh => Pc.noConfusion hh) rfl
      (fun _ _ hh => Pc.noConfusion hh))
    cases hj
    exact hpath
  | waiting k i =>
    rw [hpc] at hst
    cases hst
    refine h.move rfl rfl (Nat.le_refl _)
      (fun q hq => ⟨pc_go_ne s _ hq, rfl, fun _ _ hk => kept_of_drop hq hk⟩) (fun _ _ hx => hx)
      h.refresher ?_
    show Sound cfg delay _ p ((s.go p _).pc p)
    rw [pc_go]
    exact Sound.of_none rfl rfl
  | doubting k i | caching k i m | confirming k i =>
    have hcalm := hp.calm
    rw [hpc] at hcalm
    cases hcalm
  | out | recovering k i | holding k i | dead =>
    rw [hpc] at hst
    cases hst

/-- A refresher touches the file. -/
theorem Inv.touch (h : Inv cfg delay s) (hst : touchStep cfg s p = some t) : Inv cfg delay t := by
  have hdue : s.refresher p = .due := by
    unfold touchStep at hst
    cases hr : s.refresher p with
    | due => rfl
    | none | asleep =>
      simp only [hr] at hst
      cases hst
  obtain ⟨i, hpath⟩ := h.refresher p (by rw [hdue]; exact Refresher.noConfusion)
  simp only [touchStep, hdue, hpath] at hst
  cases hst
  -- what was touched once is touched now
  have htouched : ∀ x, x ≤ s.now → Touched cfg { s.renew p with
      mtime := Function.update s.mtime i (s.now + cfg.stamps p) } i x :=
    fun x hx => ⟨p, s.now, hx, Nat.le_refl _, Function.update_self ..⟩
  have hold : ∀ {j x}, s.path = some j → Touched cfg s j x → i = j ∧ x ≤ s.now := by
    rintro j x hj ⟨q, t', hx, ht', -⟩
    rw [hpath] at hj
    cases hj
    exact ⟨rfl, Nat.le_trans hx ht'⟩
  refine ⟨fun q => ?_, fun q x hq => ?_, fun q _ => ⟨i, hpath⟩⟩
  · refine (h.sound q).mono rfl (fun _ _ hk => hk) rfl fun j x hj hx => ?_
    obtain ⟨rfl, hnow⟩ := hold hj hx
    exact htouched x hnow
  · by_cases hqp : q = p
    · subst hqp
      have hx : s.now = x := by simpa [State.renew] using hq
      exact ⟨i, hpath, htouched x (Nat.le_of_eq hx.symm)⟩
    · obtain ⟨j, hj, hx⟩ := h.renewed q x (by simpa [State.renew, hqp] using hq)
      obtain ⟨rfl, hnow⟩ := hold hj hx
      exact ⟨i, hpath, htouched x hnow⟩

/-- **One step.** -/
theorem Inv.step (hskew : ∀ p q, cfg.ahead p - cfg.stamps q + delay + lag ≤ cfg.lockfileStaleAge)
    (h : Inv cfg delay s) (hg : Renewed delay lag s a) (hst : step cfg s a = some t) :
    Inv cfg delay t := by
  cases a with
  | run p => exact h.run hskew hg hst
  | touch p => exact h.touch hst
  | call p k =>
    simp only [AquireLock.step] at hst
    split at hst
    · cases hst
      exact h.go (Sound.of_none rfl rfl)
    · cases hst
  | skip p =>
    have hcalm := (h.sound p).calm
    simp only [AquireLock.step] at hst
    split at hst
    · rename_i hpc
      rw [hpc] at hcalm
      cases hcalm
    · rename_i hpc
      rw [hpc] at hcalm
      cases hcalm
    · cases hst
  | recover p swapped =>
    have hcalm := (h.sound p).calm
    simp only [AquireLock.step] at hst
    split at hst
    · rename_i hpc
      rw [hpc] at hcalm
      cases hcalm
    · cases hst
  | close p => exact absurd rfl (hg.kept p)
  | leave p =>
    simp only [AquireLock.step] at hst
    split at hst
    · cases hst
    · cases hst
      refine h.move rfl rfl (Nat.le_refl _)
        (fun q hq => ⟨pc_go_ne s _ hq, rfl, fun k i hk => ?_⟩) (fun _ _ hx => hx) (fun q hq => ?_) ?_
      · show (q, k) ∈ ((s.pc p).file.elim s.locks fun i => s.locks.drop i p).on i
        cases (s.pc p).file with
        | none => exact hk
        | some j => exact kept_of_drop hq hk
      · by_cases hqp : q = p
        · simp [hqp] at hq
        · exact h.refresher q (by simpa [hqp] using hq)
      · show Sound cfg delay _ p ((s.go p _).pc p)
        rw [pc_go]
        exact Sound.of_none rfl rfl
  | wake p =>
    simp only [AquireLock.step, wakeStep] at hst
    split at hst
    · rename_i hasleep
      cases hst
      obtain ⟨j, hj⟩ := h.refresher p (by rw [hasleep]; exact Refresher.noConfusion)
      exact ⟨fun q => (h.sound q).mono rfl (fun _ _ hk => hk) rfl fun _ _ _ hx =>
          hx.mono rfl (Nat.le_refl _), h.renewed, fun q _ => ⟨j, hj⟩⟩
    · cases hst
  | kill p stuck =>
    cases hst
    refine h.move rfl rfl (Nat.le_refl _) (fun q hq => ⟨pc_go_ne s _ hq, rfl, fun k i hk => ?_⟩)
      (fun _ _ hx => hx) h.refresher ?_
    · cases stuck with
      | true => exact hk
      | false => exact mem_others.mpr ⟨hk, hq⟩
    · show Sound cfg delay _ p ((s.go p _).pc p)
      rw [pc_go]
      exact Sound.of_none rfl rfl
  | tick =>
    cases hst
    have hmono : ∀ {j x}, Touched cfg s j x → Touched cfg { s with now := s.now + 1 } j x :=
      fun hx => hx.mono rfl (Nat.le_succ _)
    refine ⟨fun q => (h.sound q).mono rfl (fun _ _ hk => hk) rfl fun _ _ _ hx => hmono hx,
      fun q x hq => ?_, h.refresher⟩
    obtain ⟨j, hj, hx⟩ := h.renewed q x hq
    exact ⟨j, hj, hmono hx⟩

/-- **A lock that is renewed in time keeps everybody else out.**  Along the runs in which whoever
    polls in vain is kept out by somebody whose refresher has touched the file within `delay`, and
    stats the file within `lag` of its last poll — the clocks of any two processes being close
    enough for that — and no block opens and closes the lock file: nobody ever begins a recovery,
    who is in a block has the lock on the file at the path, and a writer in its block is the only
    process in a block. -/
theorem exclusive_of_renewed (cfg : Config P) (delay lag : Nat)
    (hskew : ∀ p q, cfg.ahead p - cfg.stamps q + delay + lag ≤ cfg.lockfileStaleAge) (s : State P)
    (h : Reach Initial (AquireLock.step cfg) (Renewed delay lag) s) :
    (∀ p k i, s.pc p ≠ .recovering k i) ∧
    (∀ p k i, s.pc p = .holding k i → s.path = some i ∧ (p, k) ∈ s.locks.on i) ∧
    ∀ p q k i j, s.pc p = .holding .exclusive i → s.pc q = .holding k j → q = p := by
  have hinv : Inv cfg delay s :=
    Reach.invariant (fun _ => Inv.init) (fun _ _ _ hi hg hst => hi.step hskew hg hst) h
  refine ⟨fun p k i hp => ?_, fun p k i hp => ⟨?_, (hinv.sound p).holds k i hp⟩,
    fun p q k i j hp hq => ?_⟩
  · have hcalm := (hinv.sound p).calm
    rw [hp] at hcalm
    cases hcalm
  · exact (hinv.sound p).file i (by rw [hp]; rfl)
  · -- both have the file at the path open
    have hi : s.path = some i := (hinv.sound p).file i (by rw [hp]; rfl)
    have hj : s.path = some j := (hinv.sound q).file j (by rw [hq]; rfl)
    rw [hi] at hj
    cases hj
    exact exclusive_only ((hinv.sound p).holds .exclusive i hp) ((hinv.sound q).holds k i hq)

end Steps

/-! ## Two processes to look at -/

/-- A lock file is stale after three units. -/
def short : Config Bool := ⟨3, true, fun _ => 0, fun _ => 0⟩

/-- Nobody has used the queue for a long time: at `now` the lock file is of time 0. -/
def unused (now : Nat) : State Bool where
  path := some 0
  used := 1
  mtime := fun _ => 0
  locks := Locks.none
  pc := fun _ => .out
  refresher := fun _ => .none
  now := now
  polled := fun _ => 0
  renewed := fun _ => none

theorem initial_unused (now : Nat) : Initial (unused now) := by
  refine ⟨fun _ => ⟨rfl, rfl, rfl⟩, fun _ => rfl, fun i hi => ?_⟩
  cases hi
  exact Nat.zero_lt_one

/-- `p` opens the file and takes `n` more operations. -/
def enters (p : Bool) (k : Kind) (n : Nat) : List (Label Bool) :=
  .call p k :: .run p :: List.replicate n (.run p)

/-- `Renewed`, as a test. -/
def renewedTest (delay lag : Nat) (s : State Bool) : Label Bool → Bool
  | .close _ => false
  | .run p =>
    match s.pc p with
    | .polling k i n =>
      n != polls - 1 || (s.locks.setlk i p k).isSome || (s.locks.on i).any fun e =>
        (s.renewed e.1).any fun t => decide (s.now ≤ t + delay)
    | .refused _ _ => decide (s.now ≤ s.polled p + lag)
    | _ => true
  | _ => true

theorem renewed_of_test {delay lag : Nat} {s : State Bool} {a : Label Bool}
    (h : renewedTest delay lag s a = true) : Renewed delay lag s a := by
  refine ⟨fun p k i ha hp hl => ?_, fun p k i ha hp => ?_, fun p ha => ?_⟩
  · subst ha
    simp only [renewedTest, hp, bne_self_eq_false, hl, Option.isSome_none, Bool.or_self,
      Bool.false_or, List.any_eq_true, Option.any_eq_true] at h
    obtain ⟨⟨q, k'⟩, hmem, t, ht, hnow⟩ := h
    exact ⟨q, k', t, hmem, ht, of_decide_eq_true hnow⟩
  · subst ha
    simpa [renewedTest, hp] using h
  · subst ha
    exact Bool.false_ne_true h

set_option maxRecDepth 8000 in
/-- A reader polls in vain while a writer is in its block, sleeps, and has the lock in its next try. -/
theorem reader_waits : ∃ s, Reach Initial (step short) (Renewed 2 1) s ∧
    s.pc true = .holding .shared 0 ∧ s.path = some 0 ∧ (true, .shared) ∈ s.locks.on 0 := by
  obtain ⟨s, hs, hobs⟩ : ∃ s, exec (checked (step short) (renewedTest 2 1))
      (enters false .exclusive 1 ++ .touch false :: .tick :: .wake false :: enters true .shared 43 ++
        [.run true, .leave false, .run true, .run true]) (unused 50) = some s ∧
      decide (s.pc true = .holding .shared 0) = true := exists_of_any (by decide)
  have hpc := of_decide_eq_true hobs
  have hr : Reach Initial (step short) (Renewed 2 1) s :=
    (Reach.checked (fun _ _ _ => renewed_of_test) (Reach.init (initial_unused 50)) hs).1
  obtain ⟨-, hholds, -⟩ := exclusive_of_renewed short 2 1 (by decide) s hr
  exact ⟨s, hr, hpc, hholds true .shared 0 hpc⟩

set_option maxRecDepth 8000 in
/-- Without renewals: two processes write, one to the old queue and one to the copy. -/
theorem two_writers : ∃ s, exec (step short)
      (enters false .exclusive 1 ++ List.replicate 4 .tick ++ enters true .exclusive 46 ++
        [.recover true true, .run true, .run true, .run true]) (unused 0) = some s ∧
    s.pc false = .holding .exclusive 0 ∧ s.pc true = .holding .exclusive 1 := by
  obtain ⟨s, hs, hobs⟩ : ∃ s, exec (step short)
      (enters false .exclusive 1 ++ List.replicate 4 .tick ++ enters true .exclusive 46 ++
        [.recover true true, .run true, .run true, .run true]) (unused 0) = some s ∧
      decide (s.pc false = .holding .exclusive 0 ∧ s.pc true = .holding .exclusive 1) = true :=
    exists_of_any (by decide)
  exact ⟨s, hs, of_decide_eq_true hobs⟩

set_option maxRecDepth 8000 in
/-- A refresher that touches the file within the unit, but after another process has polled in vain:
    its touch falls into the `uncache` of that process, which writes the old mtime back. -/
theorem renewal_written_over : ∃ s, exec (step short)
      (enters false .exclusive 1 ++ enters true .exclusive 44 ++
        [.touch false, .run true, .run true]) (unused 10) = some s ∧
    s.renewed false = some s.now ∧ s.pc true = .recovering .exclusive 0 := by
  obtain ⟨s, hs, hobs⟩ : ∃ s, exec (step short)
      (enters false .exclusive 1 ++ enters true .exclusive 44 ++
        [.touch false, .run true, .run true]) (unused 10) = some s ∧
      decide (s.renewed false = some s.now ∧ s.pc true = .recovering .exclusive 0) = true :=
    exists_of_any (by decide)
  exact ⟨s, hs, of_decide_eq_true hobs⟩

set_option maxRecDepth 8000 in
/-- A writer that copies the lock file in its block has a second one beside it at the next poll. -/
theorem copied_lock_is_lost : ∃ s, exec (step short)
      (enters false .exclusive 1 ++ .touch false :: .close false :: enters true .exclusive 1)
        (unused 10) = some s ∧
    s.pc false = .holding .exclusive 0 ∧ s.pc true = .holding .exclusive 0 := by
  obtain ⟨s, hs, hobs⟩ : ∃ s, exec (step short)
      (enters false .exclusive 1 ++ .touch false :: .close false :: enters true .exclusive 1)
        (unused 10) = some s ∧
      decide (s.pc false = .holding .exclusive 0 ∧ s.pc true = .holding .exclusive 0) = true :=
    exists_of_any (by decide)
  exact ⟨s, hs, of_decide_eq_true hobs⟩

/-! ## A lock that nobody renews -/

/-- Files are numbered as they are made, and there are no locks on one that is still to be made. -/
structure Numbered (s : State P) : Prop where
  path : ∀ i, s.path = some i → i < s.used
  file : ∀ p i, (s.pc p).file = some i → i < s.used
  locks : ∀ i, s.used ≤ i → s.locks.on i = []

section Numbered

variable {cfg : Config P} {s t : State P} {a : Label P}

omit [DecidableEq P] in
/-- A step that makes no file, or one. -/
theorem Numbered.mono (h : Numbered s) (hused : s.used ≤ t.used)
    (hpath : ∀ i, t.path = some i → i < t.used)
    (hfile : ∀ p i, (t.pc p).file = some i → (s.pc p).file = some i ∨ i < t.used)
    (hlocks : ∀ i, s.locks.on i = [] → t.used ≤ i → t.locks.on i = []) : Numbered t := by
  refine ⟨hpath, fun p i hp => ?_, fun i hi => hlocks i (h.locks i (Nat.le_trans hused hi)) hi⟩
  rcases hfile p i hp with hold | hlt
  · exact Nat.lt_of_lt_of_le (h.file p i hold) hused
  · exact hlt

/-- Only the place of `p` changes. -/
theorem Numbered.go (h : Numbered s) {p : P} {φ : Pc} (hφ : ∀ i, φ.file = some i → i < s.used) :
    Numbered (s.go p φ) := by
  refine h.mono (Nat.le_refl _) h.path (fun q i hq => ?_) (fun i hi _ => hi)
  by_cases hqp : q = p
  · rw [hqp, pc_go] at hq
    exact Or.inr (hφ i hq)
  · rw [pc_go_ne _ _ hqp] at hq
    exact Or.inl hq

omit [DecidableEq P] in
/-- A new file is made. -/
theorem Numbered.create (h : Numbered s) : Numbered s.create := by
  refine h.mono (Nat.le_succ _) (fun i hi => ?_) (fun p i hp => Or.inl hp) (fun i hi _ => hi)
  cases hi
  exact Nat.lt_succ_self _

omit [DecidableEq P] in
/-- Locks are dropped. -/
theorem Numbered.drop (h : Numbered s) {l : Locks P Nat}
    (hl : ∀ i, s.locks.on i = [] → l.on i = []) : Numbered { s with locks := l } :=
  h.mono (Nat.le_refl _) h.path (fun _ _ hp => Or.inl hp) fun i hi _ => hl i hi

theorem on_drop_nil {l : Locks P Nat} {p : P} {i j : Nat} (h : l.on j = []) :
    (l.drop i p).on j = [] := by
  rw [on_drop]
  by_cases hj : j = i
  · subst hj
    rw [if_pos rfl, h]
    rfl
  · rwa [if_neg hj]

theorem Numbered.run {p : P} (h : Numbered s) (hst : runStep cfg s p = some t) : Numbered t := by
  have hp := h.file p
  unfold runStep at hst
  cases hpc : s.pc p with
  | opening k =>
    rw [hpc] at hst
    simp only at hst
    split at hst
    · cases hst
      refine h.create.go fun i hi => ?_
      cases hi
      exact Nat.lt_succ_self _
    · rename_i i hpath
      cases hst
      refine h.go fun j hj => ?_
      cases hj
      exact h.path i hpath
  | polling k i n =>
    have hi : i < s.used := hp i (by rw [hpc]; rfl)
    rw [hpc] at hst
    simp only at hst
    split at hst
    · rename_i l hl
      cases hst
      have hgo : Numbered (s.go p (.holding k i)) := h.go fun j hj => by
        cases hj
        exact hi
      refine hgo.mono (Nat.le_refl _) hgo.path (fun _ _ hq => Or.inl hq) fun j hj hle => ?_
      -- the lock is on a file that is there
      have hne : j ≠ i := by
        have hle : s.used ≤ j := hle
        omega
      show l.on j = []
      rw [(setlk_some hl).2 j, if_neg hne]
      exact hj
    · cases hst
      have hgo : Numbered (s.go p (if n + 1 = polls then .refused k i else .polling k i (n + 1))) := by
        refine h.go fun j hj => ?_
        split at hj <;> cases hj <;> exact hi
      exact hgo.mono (Nat.le_refl _) hgo.path (fun _ _ hq => Or.inl hq) fun _ hj _ => hj
  | refused k i | doubting k i | confirming k i =>
    have hi : i < s.used := hp i (by rw [hpc]; rfl)
    rw [hpc] at hst
    simp only at hst
    split at hst <;> cases hst <;> refine h.go fun j hj => ?_
    all_goals
      first
      | cases hj; exact hi
      | cases hj
      | split at hj <;> cases hj <;> exact hi
  | caching k i m =>
    have hi : i < s.used := hp i (by rw [hpc]; rfl)
    have hgo : Numbered (s.go p (.confirming k i)) := h.go fun j hj => by
      cases hj
      exact hi
    rw [hpc] at hst
    simp only at hst
    split at hst
    · cases hst
      exact hgo
    · cases hst
      exact hgo.mono (Nat.le_refl _) hgo.path (fun _ _ hq => Or.inl hq) fun _ hj _ => hj
  | waiting k i =>
    rw [hpc] at hst
    cases hst
    have hgo : Numbered (s.go p (.opening k)) := h.go fun j hj => by cases hj
    exact hgo.drop fun _ hj => on_drop_nil hj
  | out | recovering k i | holding k i | dead =>
    rw [hpc] at hst
    cases hst

theorem Numbered.step (h : Numbered s) (hst : step cfg s a = some t) : Numbered t := by
  cases a with
  | run p => exact h.run hst
  | call p k =>
    simp only [AquireLock.step] at hst
    split at hst
    · cases hst
      exact h.go fun j hj => by cases hj
    · cases hst
  | skip p =>
    simp only [AquireLock.step] at hst
    split at hst
    · rename_i k i hpc
      cases hst
      refine h.go fun j hj => ?_
      cases hj
      exact h.file p i (by rw [hpc]; rfl)
    · rename_i k i _ hpc
      cases hst
      refine h.go fun j hj => ?_
      cases hj
      exact h.file p i (by rw [hpc]; rfl)
    · cases hst
  | recover p swapped =>
    simp only [AquireLock.step] at hst
    split at hst
    · rename_i k i hpc
      have hi : i < s.used := h.file p i (by rw [hpc]; rfl)
      split at hst
      · cases hst
        refine h.create.go fun j hj => ?_
        cases hj
        exact Nat.lt_succ_of_lt hi
      · cases hst
        refine h.go fun j hj => ?_
        cases hj
        exact hi
    · cases hst
  | close p =>
    simp only [AquireLock.step] at hst
    split at hst
    · cases hst
      refine h.mono (Nat.le_refl _) h.path (fun _ _ hq => Or.inl hq) fun j hj _ => ?_
      show (s.path.elim s.locks fun i => s.locks.drop i p).on j = []
      cases s.path with
      | none => exact hj
      | some i => exact on_drop_nil hj
    · cases hst
  | leave p =>
    simp only [AquireLock.step] at hst
    split at hst
    · cases hst
    · cases hst
      have hgo : Numbered (s.go p .out) := h.go fun j hj => by cases hj
      refine hgo.mono (Nat.le_refl _) hgo.path (fun _ _ hq => Or.inl hq) fun j hj _ => ?_
      show ((s.pc p).file.elim s.locks fun i => s.locks.drop i p).on j = []
      cases (s.pc p).file with
      | none => exact hj
      | some i => exact on_drop_nil hj
  | touch p =>
    have hrenew : Numbered (s.renew p) :=
      h.mono (Nat.le_refl _) h.path (fun _ _ hq => Or.inl hq) fun _ hj _ => hj
    simp only [AquireLock.step, touchStep] at hst
    split at hst
    · cases hst
      exact hrenew.mono (Nat.le_refl _) hrenew.path (fun _ _ hq => Or.inl hq) fun _ hj _ => hj
    · cases hst
      exact hrenew.create
    · cases hst
  | wake p =>
    simp only [AquireLock.step, wakeStep] at hst
    split at hst
    · cases hst
      exact h.mono (Nat.le_refl _) h.path (fun _ _ hq => Or.inl hq) fun _ hj _ => hj
    · cases hst
  | kill p stuck =>
    cases hst
    have hgo : Numbered (s.go p .dead) := h.go fun j hj => by cases hj
    refine hgo.drop fun j hj => ?_
    cases stuck with
    | true => exact hj
    | false =>
      have hj : s.locks.on j = [] := hj
      show others p (s.locks.on j) = []
      rw [hj]
      rfl
  | tick =>
    cases hst
    exact h.mono (Nat.le_refl _) h.path (fun _ _ hq => Or.inl hq) fun _ hj _ => hj

omit [DecidableEq P] in
theorem Numbered.init (h : Initial s) : Numbered s := by
  refine ⟨h.2.2, fun p i hp => ?_, fun i _ => h.2.1 i⟩
  rw [(h.1 p).1] at hp
  cases hp

end Numbered

def Label.isTick : Label P → Bool
  | .tick => true
  | _ => false

/-- From the first stat on. -/
def recovers (p : P) : List (Label P) :=
  [.run p, .run p, .run p, .run p, .recover p true, .run p, .run p, .run p]

/-- What `p` does until it has the lock: it opens the file and polls; it stats the file, goes through
    `uncache` and stats it again; it recovers; it closes the file, opens the new one and is granted the
    lock. -/
def takesOver (p : P) : List (Label P) := .run p :: (List.replicate polls (.run p) ++ recovers p)

/-- `i` is at the path, stale for `p`, and `p` gets no lock on it; the file to be made next is `j`. -/
structure Stuck (cfg : Config P) (p : P) (k : Kind) (i j : Nat) (s : State P) : Prop where
  path : s.path = some i
  stale : stale cfg s p i = true
  locked : s.locks.setlk i p k = none
  used : s.used = j
  free : s.locks.on j = []

/-- `j` is at the path, and nobody has a lock on it. -/
structure Swapped (j : Nat) (s : State P) : Prop where
  path : s.path = some j
  free : s.locks.on j = []

/-- Where `p` is when a part of `takesOver` is still to come. -/
inductive Way (cfg : Config P) (p : P) (k : Kind) (i j : Nat) : List (Label P) → State P → Prop
  | opening {s} : s.pc p = .opening k → Stuck cfg p k i j s → Way cfg p k i j (takesOver p) s
  | polling {s n m} : s.pc p = .polling k i n → n + (m + 1) = polls → Stuck cfg p k i j s →
      Way cfg p k i j (List.replicate (m + 1) (.run p) ++ recovers p) s
  | refused {s} : s.pc p = .refused k i → Stuck cfg p k i j s → Way cfg p k i j (recovers p) s
  | doubting {s} : s.pc p = .doubting k i → Stuck cfg p k i j s →
      Way cfg p k i j (recovers p).tail s
  | caching {s} : s.pc p = .caching k i (s.mtime i) → Stuck cfg p k i j s →
      Way cfg p k i j ((recovers p).drop 2) s
  | confirming {s} : s.pc p = .confirming k i → Stuck cfg p k i j s →
      Way cfg p k i j ((recovers p).drop 3) s
  | recovering {s} : s.pc p = .recovering k i → Stuck cfg p k i j s →
      Way cfg p k i j ((recovers p).drop 4) s
  | waiting {s} : s.pc p = .waiting k i → Swapped j s → Way cfg p k i j ((recovers p).drop 5) s
  | reopening {s} : s.pc p = .opening k → Swapped j s → Way cfg p k i j ((recovers p).drop 6) s
  | asking {s} : s.pc p = .polling k j 0 → Swapped j s → Way cfg p k i j ((recovers p).drop 7) s
  | holding {s} : s.pc p = .holding k j → s.path = some j →
      (∀ q k', (q, k') ∈ s.locks.on j → q = p) → Way cfg p k i j [] s

section Way

variable {cfg : Config P} {p : P} {k : Kind} {i j : Nat} {s t : State P} {a : Label P}
  {as : List (Label P)}

omit [DecidableEq P] in
/-- Time only makes the file older. -/
theorem stale_tick (h : stale cfg s p i = true) :
    stale cfg { s with now := s.now + 1 } p i = true := by
  simp only [stale, decide_eq_true_eq] at h ⊢
  show s.mtime i < ((s.now + 1 : Nat) : Int) + cfg.ahead p - cfg.lockfileStaleAge
  omega

/-- What is stuck stays stuck when only the place of `p` changes, … -/
theorem Stuck.go (h : Stuck cfg p k i j s) (φ : Pc) : Stuck cfg p k i j (s.go p φ) :=
  ⟨h.path, h.stale, h.locked, h.used, h.free⟩

/-- … and when time goes by. -/
theorem Stuck.tick (h : Stuck cfg p k i j s) : Stuck cfg p k i j { s with now := s.now + 1 } :=
  ⟨h.path, stale_tick h.stale, h.locked, h.used, h.free⟩

theorem Way.tick (h : Way cfg p k i j as s) : Way cfg p k i j as { s with now := s.now + 1 } := by
  cases h with
  | opening hp hs => exact .opening hp hs.tick
  | polling hp hn hs => exact .polling hp hn hs.tick
  | refused hp hs => exact .refused hp hs.tick
  | doubting hp hs => exact .doubting hp hs.tick
  | caching hp hs => exact .caching hp hs.tick
  | confirming hp hs => exact .confirming hp hs.tick
  | recovering hp hs => exact .recovering hp hs.tick
  | waiting hp hs => exact .waiting hp ⟨hs.path, hs.free⟩
  | reopening hp hs => exact .reopening hp ⟨hs.path, hs.free⟩
  | asking hp hs => exact .asking hp ⟨hs.path, hs.free⟩
  | holding hp hpath hl => exact .holding hp hpath hl

omit [DecidableEq P] in
/-- On a file without locks every lock is granted. -/
theorem setlk_of_free [DecidableEq P] {l : Locks P Nat} (h : l.on j = []) :
    ∃ l', l.setlk j p k = some l' ∧ l'.on j = [(p, k)] := by
  have hg : l.grants j p k = true := grants_of_free (by rw [h]; simp) k
  obtain ⟨l', hl'⟩ : ∃ l', l.setlk j p k = some l' := by
    unfold Locks.setlk
    rw [dif_pos hg]
    exact ⟨_, rfl⟩
  refine ⟨l', hl', ?_⟩
  rw [(setlk_some hl').2 j, if_pos rfl, h]
  rfl

/-- **One operation.** -/
theorem Way.step (hattempt : cfg.attemptLockdRecovery = true) (h : Way cfg p k i j (a :: as) s) :
    ∃ t, step cfg s a = some t ∧ Way cfg p k i j as t := by
  generalize hl : a :: as = l at h
  cases h with
  | opening hp hs =>
    cases hl
    refine ⟨s.go p (.polling k i 0), ?_, .polling (m := 41) (pc_go ..) rfl (hs.go _)⟩
    simp only [AquireLock.step, runStep, hp, hs.path]
  | @polling _ n m hp hn hs =>
    cases hl
    have hstep : step cfg s (.run p) = some { s.go p
        (if n + 1 = polls then .refused k i else .polling k i (n + 1)) with
          polled := Function.update s.polled p s.now } := by
      simp only [AquireLock.step, runStep, hp, hs.locked]
    refine ⟨_, hstep, ?_⟩
    have hs' : ∀ φ, Stuck cfg p k i j { s.go p φ with
        polled := Function.update s.polled p s.now } :=
      fun φ => ⟨hs.path, hs.stale, hs.locked, hs.used, hs.free⟩
    cases m with
    | zero =>
      rw [if_pos hn]
      exact .refused (pc_go s p _) (hs' _)
    | succ m =>
      rw [if_neg (by omega)]
      exact .polling (pc_go s p _) (by omega) (hs' _)
  | refused hp hs =>
    cases hl
    refine ⟨s.go p (.doubting k i), ?_, .doubting (pc_go ..) (hs.go _)⟩
    simp only [AquireLock.step, runStep, hp, hs.path, hs.stale, if_true]
  | doubting hp hs =>
    cases hl
    refine ⟨s.go p (.caching k i (s.mtime i)), ?_, .caching (pc_go ..) (hs.go _)⟩
    simp only [AquireLock.step, runStep, hp, hs.path]
  | caching hp hs =>
    cases hl
    -- nobody has touched the file in between
    refine ⟨s.go p (.confirming k i), ?_, .confirming (pc_go ..) (hs.go _)⟩
    simp only [AquireLock.step, runStep, hp, hs.path, Function.update_eq_self]
    rfl
  | confirming hp hs =>
    cases hl
    refine ⟨s.go p (.recovering k i), ?_, .recovering (pc_go ..) (hs.go _)⟩
    simp only [AquireLock.step, runStep, hp, hs.path, hs.stale, hattempt, Bool.and_self, if_true]
  | recovering hp hs =>
    cases hl
    refine ⟨s.create.go p (.waiting k i), ?_, .waiting (pc_go ..) ⟨?_, hs.free⟩⟩
    · simp only [AquireLock.step, hp, if_true]
    · show some s.used = some j
      rw [hs.used]
  | waiting hp hs =>
    cases hl
    refine ⟨{ s.go p (.opening k) with locks := s.locks.drop i p }, ?_,
      .reopening (pc_go ..) ⟨hs.path, on_drop_nil hs.free⟩⟩
    simp only [AquireLock.step, runStep, hp]
  | reopening hp hs =>
    cases hl
    refine ⟨s.go p (.polling k j 0), ?_, .asking (pc_go ..) ⟨hs.path, hs.free⟩⟩
    simp only [AquireLock.step, runStep, hp, hs.path]
  | asking hp hs =>
    cases hl
    obtain ⟨l, hl, hon⟩ := @setlk_of_free P p k j _ s.locks hs.free
    have hstep : step cfg s (.run p) = some { s.go p (.holding k j) with
        locks := l
        refresher := Function.update s.refresher p .due
        renewed := Function.update s.renewed p none } := by
      simp only [AquireLock.step, runStep, hp, hl]
    refine ⟨_, hstep, .holding (pc_go s p _) hs.path fun q k' hq => ?_⟩
    have hq : (q, k') ∈ l.on j := hq
    rw [hon] at hq
    cases hq with
    | head => rfl
    | tail _ hq => cases hq
  | holding _ _ _ => cases hl

end Way

/-- **A lock that nobody renews does not stop the queue.**  In any state that a run reaches: a
    process that opens a lock file on which it is granted no lock, and that is stale by its clock,
    has the lock after 51 steps of its own here — the recovery, which is attempted and succeeds, is
    one of them — when nobody else does anything, however much time goes by in between.  The lock is
    on a new file, at the path, and nobody else has one on that. -/
theorem stuck_lock_is_recovered (cfg : Config P) (hattempt : cfg.attemptLockdRecovery = true)
    (s : State P) (h : Reach Initial (step cfg) (fun _ _ => True) s) (p : P) (k : Kind) (i : Nat)
    (hp : s.pc p = .opening k) (hpath : s.path = some i) (hstale : stale cfg s p i = true)
    (hlocked : s.locks.setlk i p k = none) (l : List (Label P))
    (hl : (l.filter fun a => !a.isTick) = takesOver p) :
    ∃ t, exec (step cfg) l s = some t ∧ t.pc p = .holding k s.used ∧ t.path = some s.used ∧
      ∀ q k', (q, k') ∈ t.locks.on s.used → q = p := by
  have hnum : Numbered s :=
    Reach.invariant (fun _ => Numbered.init) (fun _ _ _ hi _ hst => hi.step hst) h
  have hstuck : Stuck cfg p k i s.used s :=
    ⟨hpath, hstale, hlocked, rfl, hnum.locks _ (Nat.le_refl _)⟩
  obtain ⟨t, ht, hway⟩ := exec_interleaved (Q := Way cfg p k i s.used)
    (fun _ _ _ hq => hq.step hattempt)
    (fun a as u ha hq => by
      cases a with
      | tick => exact ⟨_, rfl, hq.tick⟩
      | _ => cases ha) hl (.opening hp hstuck)
  generalize hnil : ([] : List (Label P)) = as at hway
  cases hway with
  | holding hpc hpath' honly => exact ⟨t, ht, hpc, hpath', honly⟩
  | _ => cases hnil

set_option maxRecDepth 8000 in
/-- A writer is killed, the lock daemon does not hear of it, and its refresher ends; when the file has
    become stale, the next writer gets the lock. -/
theorem dead_writer_is_replaced : ∃ s t, exec (step short) (enters false .exclusive 1 ++
      [.touch false, .kill false true, .wake false, .tick, .tick, .tick, .tick, .call true .exclusive])
        (unused 50) = some s ∧ exec (step short) (.tick :: takesOver true) s = some t ∧
    s.refresher false = .none ∧ t.pc true = .holding .exclusive s.used ∧ t.path = some s.used := by
  obtain ⟨s, hs, hobs⟩ : ∃ s, exec (step short) (enters false .exclusive 1 ++
      [.touch false, .kill false true, .wake false, .tick, .tick, .tick, .tick, .call true .exclusive])
        (unused 50) = some s ∧
      decide (s.refresher false = .none ∧ s.pc true = .opening .exclusive ∧ s.path = some 0 ∧
        stale short s true 0 = true ∧ (s.locks.setlk 0 true .exclusive).isNone = true) = true :=
    exists_of_any (by decide)
  obtain ⟨hrefresher, hpc, hpath, hstale, hlocked⟩ := of_decide_eq_true hobs
  have hr : Reach Initial (step short) (fun _ _ => True) s :=
    Reach.exec (Reach.init (initial_unused 50)) (along_true _ _) hs
  obtain ⟨t, ht, hholds, hnew, -⟩ := stuck_lock_is_recovered short rfl s hr true .exclusive 0 hpc hpath
    hstale (Option.isNone_iff_eq_none.mp hlocked) (.tick :: takesOver true) (by decide)
  exact ⟨s, t, hs, ht, hrefresher, hholds, hnew⟩

end RubyQueue.AquireLock
