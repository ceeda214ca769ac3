/-
  The transactions of the feeder are whole.

  A feeder whose transactions are single steps (`Whole`): it runs a `transaction` of `start_jobs`, takes
  a child, runs a `transaction` of `reap_jobs`, each with the block as one function and with as many
  attempts as it takes; or it ends in one, with what the attempts made so far have left.  `Daemon` has
  the same feeder line by line, with signals, processes that stop and end, and failures between any two
  lines.

  * `Refines`               — how a state of the one stands for a state of the other;
  * `refines_step`          — a line is nothing to the whole feeder, or one of its moves;
  * `transactions_are_whole` — so every run is one of the whole feeder: the same changes of the table,
                              by the feeder and by the others, in the same order, and between its
                              transactions the same `@children` and calls of `JobRunner#run`;
  * `children_within_lines` — what the blocks keep then holds at every line: `max_feed` is a bound.
-/
import RubyQueue.Capacity
import RubyQueue.Lines
import RubyQueue.Shutdown

namespace RubyQueue.Daemon

open RubyQueue.JobQueue RubyQueue.Qdb RubyQueue.Feeder RubyQueue.Run

/-! ## The feeder with whole transactions -/

/-- `taken`: `reap_jobs` has a child in its hands, was called with this `reap_only`, and has these
    variables. -/
structure Whole where
  db : Jobs
  own : Own := {}
  taken : Option (Bool × Vars) := none
  gone : Bool := false

/-- What the others see of the feeder, and do: the table after a commit, or after a change of
    theirs. -/
inductive Change
  | committed (jobs : Jobs)
  | others (jobs : Jobs)

/-- What the whole feeder and the others on the queue do. -/
inductive Whole.Moves (cfg : Config) (retries : Nat) : Option Change → Whole → Whole → Prop
  | start {db db' : Jobs} {o o' : Own} (rounds : List (Round (List Fork))) :
      transaction retries (startBody cfg.host cfg.maxFeed) rounds { db := db, priv := o } =
        some ({ db := db', priv := o' }, none) →
      Moves cfg retries (some (.committed db')) ⟨db, o, none, false⟩ ⟨db', o', none, false⟩
  | wait {db : Jobs} {o o' : Own} {v : Vars} (only : Bool) (w : Waited) :
      takeChild w o { cid := none, job := none } = ((o', v), none) →
      Moves cfg retries none ⟨db, o, none, false⟩ ⟨db, o', some (only, v), false⟩
  | reap {db db' : Jobs} {o o' : Own} {only : Bool} {v v' : Vars} (rounds : List (Round (List Turn))) :
      transaction retries (reapBody cfg.host cfg.maxFeed only) rounds { db := db, priv := (o, v) } =
        some ({ db := db', priv := (o', v') }, none) →
      Moves cfg retries (some (.committed db')) ⟨db, o, some (only, v), false⟩ ⟨db', o', none, false⟩
  | others {x : Whole} (jobs : Jobs) :
      (∀ c job, x.own.children.lookup c = some job → Runs jobs cfg.host c job.jid) →
      Moves cfg retries (some (.others jobs)) x { x with db := jobs }
  | leaveStart {db : Jobs} {o o' : Own} :
      Tries (startBody cfg.host cfg.maxFeed) db o o' →
      Moves cfg retries none ⟨db, o, none, false⟩ ⟨db, o', none, true⟩
  | leaveReap {db : Jobs} {o o' : Own} {only : Bool} {v v' : Vars} :
      Tries (reapBody cfg.host cfg.maxFeed only) db (o, v) (o', v') →
      Moves cfg retries none ⟨db, o, some (only, v), false⟩ ⟨db, o', none, true⟩

/-- The lines at which no transaction is open and `reap_jobs` has no child. -/
def Pc.outside : Pc → Bool
  | .top => true
  | .feed => true
  | .rest => true
  | .waiting _ => true
  | .took _ _ _ => true
  | .handling => true
  | _ => false

/-- `start_jobs` is called by `feed` or while it waits, and is a transaction of its own. -/
def Caller.direct : Caller → Bool
  | .feed => true
  | .busywait => true
  | .loop _ _ => false

/-- The feeder has left. -/
def Pc.left : Pc → Bool
  | .gone _ => true
  | .dead => true
  | _ => false

/-- A transaction is open before the step and not after it, and the feeder has not left. -/
def commitOf (s t : St) : Option Change :=
  if s.work.isSome && t.work.isNone && !t.pc.left then some (.committed t.db) else none

/-- What is seen of a step. -/
def changeOf (s : St) (l : Label) (t : St) : Option Change :=
  match l with
  | .others jobs => some (.others jobs)
  | _ => commitOf s t

/-- **The state of the whole feeder** that a state stands for: in a transaction, the one at its
    beginning. -/
inductive Refines (cfg : Config) (s : St) : Whole → Prop
  | between {o : Own} : s.work = none → s.pc.outside = true → Has s o →
      Refines cfg s ⟨s.db, o, none, false⟩
  | taken {only : Bool} {t : Taken} {o : Own} {v : Vars} : s.work = none → s.pc = .finished only t →
      On v t → Has s o → Refines cfg s ⟨s.db, o, some (only, v), false⟩
  | starting {k : Caller} {o o₁ : Own} : s.work.isSome → s.pc.caller = some k → k.direct = true →
      Tries (startBody cfg.host cfg.maxFeed) s.db o o₁ → Starting cfg s.db o₁ s →
      Refines cfg s ⟨s.db, o, none, false⟩
  | reaping {only : Bool} {o : Own} {v : Vars} {p₁ : Own × Vars} : s.work.isSome →
      Tries (reapBody cfg.host cfg.maxFeed only) s.db (o, v) p₁ → Reaping cfg only s.db p₁ s →
      Refines cfg s ⟨s.db, o, some (only, v), false⟩
  | left {o : Own} : s.work = none → s.pc.left = true → Has s o → Refines cfg s ⟨s.db, o, none, true⟩

section Steps

variable {cfg : Config} {retries : Nat} {s t : St} {x : Whole}

/-- Nothing is seen and the whole feeder stays where it is, or it makes a move, and this is seen. -/
def Answered (cfg : Config) (retries : Nat) (x : Whole) (e : Option Change) (t : St) : Prop :=
  (e = none ∧ Refines cfg t x) ∨ ∃ y, Whole.Moves cfg retries e x y ∧ Refines cfg t y

theorem commitOf_closed (h : s.work = none) : commitOf s t = none := by
  simp [commitOf, h]

theorem commitOf_open (h : t.work.isSome) : commitOf s t = none := by
  simp [commitOf, Option.isSome_iff_ne_none.mp h]

theorem commitOf_left (h : t.pc.left = true) : commitOf s t = none := by
  simp [commitOf, h]

theorem commitOf_commit (h : s.work.isSome) {pc : Pc} (hpc : pc.left = false) :
    commitOf s (s.commit pc) = some (.committed s.tbl) := by
  simp [commitOf, St.commit, h, hpc]

/-- A feeder that leaves. -/
theorem Refines.leave (h : Refines cfg s x) (hhere : s.pc.left = false) (hdb : t.db = s.db)
    (hwork : t.work = none) (hleft : t.pc.left = true) (hchildren : t.children = s.children)
    (hprocs : t.procs = s.procs) : Answered cfg retries x (commitOf s t) t := by
  rw [commitOf_left hleft]
  have hgone : ∀ {o : Own}, Has s o → Refines cfg t ⟨s.db, o, none, true⟩ := fun hhas =>
    hdb ▸ .left hwork hleft ⟨hhas.1.trans hchildren.symm, hprocs ▸ hhas.2⟩
  cases h with
  | between _ _ hhas => exact .inr ⟨_, .leaveStart .refl, hgone hhas⟩
  | taken _ _ _ hhas => exact .inr ⟨_, .leaveReap .refl, hgone hhas⟩
  | starting _ _ _ htries hs =>
    obtain ⟨script, o', jobs', err, hr, herr, hhas⟩ := hs.fails
    exact .inr ⟨_, .leaveStart (htries.tail ⟨script, jobs', err, hr, herr⟩), hgone hhas⟩
  | reaping _ htries hs =>
    obtain ⟨turns, jobs', o', v', err, hr, herr, hhas, -⟩ := hs.brokenOff
    exact .inr ⟨_, .leaveReap (htries.tail ⟨turns, jobs', err, hr, herr⟩), hgone hhas⟩
  | left _ hpc _ =>
    rw [hhere] at hpc
    cases hpc

/-- A signal that only is noted. -/
theorem Refines.signaled (h : Refines cfg s x) (signals : List Signal) :
    Refines cfg { s with signals := signals } x := by
  cases h with
  | between hwork hpc hhas => exact .between hwork hpc hhas
  | taken hwork hpc hon hhas => exact .taken hwork hpc hon hhas
  | starting hwork hk hdirect htries hs => exact .starting hwork hk hdirect htries hs
  | reaping hwork htries hs => exact .reaping hwork htries hs
  | left hwork hpc hhas => exact .left hwork hpc hhas

/-- A process stops, goes on or ends. -/
theorem Refines.proc (h : Refines cfg s x) {n : Nat} {p : Proc} {st : ProcState}
    (hn : s.procs[n]? = some p) :
    Refines cfg { s with procs := s.procs.set n { p with state := st } } x := by
  cases h with
  | between hwork hpc hhas => exact .between hwork hpc (hhas.set hn rfl rfl rfl)
  | taken hwork hpc hon hhas => exact .taken hwork hpc hon (hhas.set hn rfl rfl rfl)
  | starting hwork hk hdirect htries hs =>
    exact .starting hwork hk hdirect htries (hs.set hn rfl rfl rfl)
  | reaping hwork htries hs => exact .reaping hwork htries (hs.set hn rfl rfl rfl)
  | left hwork hpc hhas => exact .left hwork hpc (hhas.set hn rfl rfl rfl)

/-- The others change the table. -/
theorem Refines.others (h : Refines cfg s x) {jobs : Jobs} (hwork : s.work = none)
    (hruns : ∀ c job, s.children.lookup c = some job → Runs jobs cfg.host c job.jid) :
    Answered cfg retries x (some (.others jobs)) { s with db := jobs } := by
  cases h with
  | between _ hpc hhas =>
    refine .inr ⟨_, .others jobs ?_, .between hwork hpc hhas⟩
    rw [hhas.1]
    exact hruns
  | taken _ hpc hon hhas =>
    refine .inr ⟨_, .others jobs ?_, .taken hwork hpc hon hhas⟩
    rw [hhas.1]
    exact hruns
  | starting hopen => simp [hwork] at hopen
  | reaping hopen => simp [hwork] at hopen
  | left _ hpc hhas =>
    refine .inr ⟨_, .others jobs ?_, .left hwork hpc hhas⟩
    rw [hhas.1]
    exact hruns

theorem outside_block {pc : Pc} (h : pc.outside = true ∨ pc.left = true) : pc.block = none := by
  cases pc <;> first | rfl | simp [Pc.outside, Pc.left] at h

theorem outside_not_left {pc : Pc} (h : pc.outside = true) : pc.left = false := by
  cases pc <;> first | rfl | cases h

theorem Reaping.not_left {only : Bool} {db : Jobs} {p : Own × Vars} (h : Reaping cfg only db p s) :
    s.pc.left = false := by
  cases hpc : s.pc <;> first | rfl | simp [Reaping, hpc, Pc.caller] at h

theorem Reaping.not_outside {only : Bool} {db : Jobs} {p : Own × Vars}
    (h : Reaping cfg only db p s) : s.pc.outside = false := by
  cases hpc : s.pc <;> first | rfl | simp [Reaping, hpc, Pc.caller] at h

theorem tick_left (h : s.pc.left = true) : tick cfg s = none := by
  unfold tick
  cases hs : s.pc <;> rw [hs] at h <;> first | rfl | cases h

theorem block_of_caller {k : Caller} (hk : s.pc.caller = some k) : s.pc.block = some k.block := by
  cases hpc : s.pc <;> rw [hpc] at hk <;> cases hk <;> rfl

/-- Between the transactions. -/
theorem Refines.of_outside (h : Refines cfg s x) (hpc : s.pc.outside = true) :
    ∃ o, x = ⟨s.db, o, none, false⟩ ∧ s.work = none ∧ Has s o := by
  have hb := outside_block (.inl hpc)
  cases h with
  | between hwork _ hhas => exact ⟨_, rfl, hwork, hhas⟩
  | taken _ hs =>
    rw [hs] at hpc
    cases hpc
  | starting _ hk => cases hb.symm.trans (block_of_caller hk)
  | reaping _ _ hs => cases hs.not_outside.symm.trans hpc
  | left _ hleft => cases (outside_not_left hpc).symm.trans hleft

/-- In a transaction. -/
theorem Refines.of_block (h : Refines cfg s x) {pc : Pc} (hb : s.pc.block = some pc) :
    s.work.isSome ∧
      ((∃ k o o₁, x = ⟨s.db, o, none, false⟩ ∧ s.pc.caller = some k ∧ k.direct = true ∧
          Tries (startBody cfg.host cfg.maxFeed) s.db o o₁ ∧ Starting cfg s.db o₁ s) ∨
        ∃ only o v p₁, x = ⟨s.db, o, some (only, v), false⟩ ∧
          Tries (reapBody cfg.host cfg.maxFeed only) s.db (o, v) p₁ ∧ Reaping cfg only s.db p₁ s) := by
  cases h with
  | between _ hpc => cases (outside_block (.inl hpc)).symm.trans hb
  | taken _ hs =>
    rw [hs] at hb
    cases hb
  | starting hwork hk hdirect htries hs =>
    exact ⟨hwork, .inl ⟨_, _, _, rfl, hk, hdirect, htries, hs⟩⟩
  | reaping hwork htries hs => exact ⟨hwork, .inr ⟨_, _, _, _, rfl, htries, hs⟩⟩
  | left _ hpc => cases (outside_block (.inr hpc)).symm.trans hb

/-- A transaction fails and is run again: one more attempt of the whole one. -/
theorem Refines.again (h : Refines cfg s x) {pc : Pc} (hb : s.pc.block = some pc) :
    Refines cfg (s.again pc) x := by
  obtain ⟨-, ⟨k, o, o₁, rfl, hk, hdirect, htries, hs⟩ | ⟨only, o, v, p₁, rfl, htries, hs⟩⟩ :=
    h.of_block hb
  · obtain ⟨script, o', jobs', err, hr, herr, hhas⟩ := hs.fails
    obtain rfl : k.block = pc := Option.some.inj ((block_of_caller hk).symm.trans hb)
    have hblock : k.block = .starting k := by
      cases k with
      | feed => rfl
      | busywait => rfl
      | loop => cases hdirect
    rw [hblock]
    exact .starting rfl rfl hdirect (htries.tail ⟨script, jobs', err, hr, herr⟩)
      ⟨o', .refl cfg s.db o', hhas⟩
  · obtain ⟨turns, jobs', o', v', err, hr, herr, hhas, hblock⟩ := hs.brokenOff
    obtain ⟨t, rfl, hon⟩ := hblock pc hb
    exact .reaping rfl (htries.tail ⟨turns, jobs', err, hr, herr⟩)
      ⟨rfl, s.db, o', v', ⟨[], fun _ => rfl⟩, hon, rfl, hhas⟩

/-- The next line of `start_jobs`. -/
theorem answered_starting {k : Caller} {o o₁ : Own} (hk : t.pc.caller = some k)
    (hdirect : k.direct = true) (htries : Tries (startBody cfg.host cfg.maxFeed) s.db o o₁)
    (hs : Starting cfg s.db o₁ t) (hdb : t.db = s.db) (hwork : t.work.isSome) :
    Answered cfg retries ⟨s.db, o, none, false⟩ (commitOf s t) t := by
  rw [← hdb] at htries hs ⊢
  exact .inl ⟨commitOf_open hwork, .starting hwork hk hdirect htries hs⟩

/-- The next line of `reap_jobs`. -/
theorem answered_reaping {only : Bool} {o : Own} {v : Vars} {p₁ : Own × Vars}
    (htries : Tries (reapBody cfg.host cfg.maxFeed only) s.db (o, v) p₁)
    (hs : Reaping cfg only s.db p₁ t) (hdb : t.db = s.db) (hwork : t.work.isSome) :
    Answered cfg retries ⟨s.db, o, some (only, v), false⟩ (commitOf s t) t := by
  rw [← hdb] at htries hs ⊢
  exact .inl ⟨commitOf_open hwork, .reaping hwork htries hs⟩

/-- The end of `start_jobs`: the transaction commits. -/
theorem answered_started {k : Caller} {o o₁ : Own} (hwork : s.work.isSome) (hdirect : k.direct = true)
    (htries : Tries (startBody cfg.host cfg.maxFeed) s.db o o₁) (hs : Starting cfg s.db o₁ s)
    (hpc : s.pc = .starting k) (hend : (s.busy cfg || (getjob cfg.host s.tbl).isNone) = true) :
    Answered cfg retries ⟨s.db, o, none, false⟩ (commitOf s (s.started k)) (s.started k) := by
  obtain ⟨script, o', hr, hhas⟩ := hs.returns hpc hend
  obtain ⟨rounds, htrans⟩ := transaction_of_tries retries htries hr
  have hmove : ∀ {pc : Pc}, pc.outside = true → pc.left = false →
      Answered cfg retries ⟨s.db, o, none, false⟩ (commitOf s (s.commit pc)) (s.commit pc) := by
    intro pc hpc hleft
    rw [commitOf_commit hwork hleft]
    exact .inr ⟨_, .start rounds htrans, .between rfl hpc hhas⟩
  cases k with
  | feed => exact hmove rfl rfl
  | busywait => exact hmove rfl rfl
  | loop => cases hdirect

/-- The end of `reap_jobs`. -/
theorem answered_reaped {only : Bool} {o : Own} {v : Vars} {p₁ : Own × Vars} {c : Taken} {loopno : Nat}
    (hwork : s.work.isSome) (htries : Tries (reapBody cfg.host cfg.maxFeed only) s.db (o, v) p₁)
    (hturn : InTurn cfg only s.db p₁ c loopno (Served cfg only c s)) :
    Answered cfg retries ⟨s.db, o, some (only, v), false⟩
      (commitOf s (s.commit (if only then .handling else .top)))
      (s.commit (if only then .handling else .top)) := by
  obtain ⟨turns, o', v', hr, hhas⟩ := hturn.returns
  obtain ⟨rounds, htrans⟩ := transaction_of_tries retries htries hr
  rw [commitOf_commit hwork (by cases only <;> rfl)]
  exact .inr ⟨_, .reap rounds htrans, .between rfl (by cases only <;> rfl) hhas⟩

/-- The lines between the transactions. -/
theorem answered_between {o : Own} (hwork : s.work = none) (hpc : s.pc.outside = true) (hhas : Has s o)
    (ht : tick cfg s = some t) :
    Answered cfg retries ⟨s.db, o, none, false⟩ (commitOf s t) t := by
  have h : Refines cfg s ⟨s.db, o, none, false⟩ := .between hwork hpc hhas
  have hnone : ∀ t, commitOf s t = none := fun t => commitOf_closed hwork
  -- the next line is another one between
  have hmove : ∀ {pc : Pc}, pc.outside = true → Answered cfg retries ⟨s.db, o, none, false⟩
      (commitOf s { s with pc := pc }) { s with pc := pc } :=
    fun hpc => .inl ⟨hnone _, .between hwork hpc hhas⟩
  unfold tick at ht
  cases hs : s.pc <;> rw [hs] at hpc <;> simp only [hs, Option.some.injEq] at ht
  case top =>
    subst ht
    split
    · exact hmove rfl
    · exact .inl ⟨hnone _, .between hwork rfl hhas⟩
  case handling =>
    subst ht
    split
    · exact h.leave (by rw [hs]; rfl) rfl hwork rfl rfl rfl
    · exact hmove rfl
  case feed =>
    subst ht
    split
    · exact hmove rfl
    · exact .inl ⟨hnone _, .starting rfl rfl rfl .refl ⟨o, .refl cfg s.db o, hhas⟩⟩
  case rest =>
    subst ht
    split
    · exact hmove rfl
    · exact hmove rfl
  case took only n w =>
    subst ht
    unfold St.finish
    split
    · exact h.leave (by rw [hs]; rfl) rfl rfl rfl rfl rfl
    · rename_i job hl
      have htake : takeChild w o { cid := none, job := none } =
          (({ o with children := o.children.insert w.cid (finishJob w job) },
            { cid := some w.cid, job := some ⟨w, job⟩, taken := 1 }), none) := by
        simp only [takeChild, hhas.1, hl]
      rw [hnone]
      refine .inr ⟨_, .wait only w htake, .taken hwork rfl ⟨rfl, rfl⟩ ⟨?_, hhas.2⟩⟩
      show o.children.insert _ _ = s.children.insert _ _
      rw [hhas.1]
  case waiting => cases ht
  all_goals exact absurd hpc (by simp [Pc.outside])

/-- A line. -/
theorem refines_tick (h : Refines cfg s x) (ht : tick cfg s = some t) :
    Answered cfg retries x (commitOf s t) t := by
  have hall := h
  cases h with
  | between hwork hpc hhas => exact answered_between hwork hpc hhas ht
  | @taken only c o v hwork hpc hon hhas =>
    simp only [tick, hpc, Option.some.injEq] at ht
    subst ht
    exact .inl ⟨commitOf_closed hwork,
      .reaping rfl .refl ⟨rfl, s.db, o, v, ⟨[], fun _ => rfl⟩, hon, rfl, hhas⟩⟩
  | starting hwork hk hdirect htries hs =>
    rcases hs.tick hwork ht with ⟨hs', hcaller, hdb, hwork'⟩ | ⟨k, hpc, hend, rfl⟩
    · exact answered_starting (hcaller.trans hk) hdirect htries hs' hdb hwork'
    · rw [hpc] at hk
      obtain rfl := Option.some.inj hk
      exact answered_started hwork hdirect htries hs hpc hend
  | reaping hwork htries hs =>
    rcases hs.tick hwork ht with ⟨hs', hdb, hwork'⟩ | ⟨c, loopno, -, hturn, rfl⟩ | rfl
    · exact answered_reaping htries hs' hdb hwork'
    · exact answered_reaped hwork htries hturn
    · exact hall.leave hs.not_left rfl rfl rfl rfl rfl
  | left _ hpc =>
    rw [tick_left hpc] at ht
    cases ht

/-- `waitpid2` returns a child. -/
theorem refines_report (h : Refines cfg s x) {n : Nat} {f e : String}
    (ht : step cfg s (.report n f e) = some t) : Answered cfg retries x (commitOf s t) t := by
  obtain ⟨p, p', status, hn, hp, ⟨only, hs, rfl⟩ | ⟨only, c, loopno, hs, -⟩⟩ := step_report ht
  · obtain ⟨-, hpid, hjid, hran⟩ := Proc.report_some hp
    obtain ⟨o, rfl, hwork, hhas⟩ := h.of_outside (by rw [hs]; rfl)
    exact .inl ⟨commitOf_closed hwork, .between hwork rfl (hhas.set hn hpid hjid hran)⟩
  · have hb : s.pc.block = some (.recording only c 0) := by rw [hs]; rfl
    obtain ⟨hwork, ⟨k, o, o₁, rfl, hk, -⟩ | ⟨only, o, v, p₁, rfl, htries, hst⟩⟩ := h.of_block hb
    · rw [hs] at hk
      cases hk
    · obtain ⟨hst', hdb, hwork'⟩ := hst.report ht
      exact answered_reaping htries hst' hdb (hwork' ▸ hwork)

/-- A process is forked. -/
theorem refines_fork (h : Refines cfg s x) {pid : Nat} {now : String}
    (ht : step cfg s (.fork pid now) = some t) : Answered cfg retries x (commitOf s t) t := by
  obtain ⟨k, job, hs, -⟩ := step_fork ht
  have hb : s.pc.block = some k.block := by rw [hs]; rfl
  obtain ⟨hwork, ⟨k', o, o₁, rfl, hk, hdirect, htries, hst⟩ | ⟨only, o, v, p₁, rfl, htries, hst⟩⟩ :=
    h.of_block hb
  · obtain ⟨hst', hcaller, hdb, hwork'⟩ := hst.fork ht
    exact answered_starting (hcaller.trans hk) hdirect htries hst' hdb (hwork' ▸ hwork)
  · obtain ⟨hst', hdb, hwork'⟩ := hst.fork ht
    exact answered_reaping htries hst' hdb (hwork' ▸ hwork)

/-- `waitpid2` returns nothing: `reap_jobs` is done. -/
theorem refines_nobody (h : Refines cfg s x) {only : Bool} {c : Taken} {loopno : Nat}
    (hs : s.pc = .looping only c loopno) :
    Answered cfg retries x (commitOf s (s.commit (if only then .handling else .top)))
      (s.commit (if only then .handling else .top)) := by
  have hb : s.pc.block = some (.recording only c 0) := by rw [hs]; rfl
  obtain ⟨hwork, ⟨k, o, o₁, rfl, hk, -⟩ | ⟨only, o, v, p₁, rfl, htries, hst⟩⟩ := h.of_block hb
  · rw [hs] at hk
    cases hk
  · simp only [Reaping, hs] at hst
    obtain ⟨rfl, hturn⟩ := hst
    exact answered_reaped hwork htries hturn

/-- A step that leaves the transaction as it is. -/
theorem Refines.quiet (h : Refines cfg t x) (hwork : t.work = s.work) :
    Answered cfg retries x (commitOf s t) t := by
  refine .inl ⟨?_, h⟩
  cases hs : s.work with
  | none => exact commitOf_closed hs
  | some jobs => exact commitOf_open (by rw [hwork, hs]; rfl)

/-- **Each step** leaves the whole feeder where it is, and nothing is seen of it, or is one of its
    moves. -/
theorem refines_step (h : Refines cfg s x) {l : Label} (ht : step cfg s l = some t) :
    Answered cfg retries x (changeOf s l t) t := by
  cases l with
  | tick => exact refines_tick h ht
  | fork pid now => exact refines_fork h ht
  | report n finished elapsed => exact refines_report h ht
  | nobody =>
    rcases step_nobody ht with ⟨only, c, loopno, hs, rfl⟩ | ⟨rfl, -, hs⟩
    · exact refines_nobody h hs
    · refine h.leave ?_ rfl rfl rfl rfl rfl
      rcases hs with ⟨only, hs⟩ | ⟨only, c, loopno, hs, -⟩ <;> rw [hs] <;> rfl
  | start =>
    obtain ⟨hs, rfl⟩ := step_start ht
    obtain ⟨o, rfl, -, hhas⟩ := h.of_outside (by rw [hs]; rfl)
    exact .inl ⟨commitOf_open rfl, .starting rfl rfl rfl .refl ⟨_, .refl cfg s.db _, hhas⟩⟩
  | signal sig =>
    obtain ⟨hgone, hdead, ⟨-, rfl⟩ | rfl⟩ := step_signal ht
    · refine h.leave ?_ rfl rfl rfl rfl rfl
      cases hs : s.pc <;> first | rfl | exact absurd hs (hgone _) | exact absurd hs hdead
    · exact (h.signaled _).quiet rfl
  | fail again =>
    obtain ⟨pc, hb, rfl⟩ := step_fail ht
    cases again with
    | true => exact .inl ⟨commitOf_open rfl, h.again hb⟩
    | false =>
      refine h.leave ?_ rfl rfl rfl rfl rfl
      rw [← Bool.not_eq_true]
      intro hleft
      rw [outside_block (.inr hleft)] at hb
      cases hb
  | proc n st =>
    obtain ⟨p, hn, -, rfl⟩ := step_proc ht
    exact (h.proc hn).quiet rfl
  | others jobs =>
    obtain ⟨hwork, hruns, rfl⟩ := step_others ht
    exact h.others hwork hruns

end Steps

/-! ## Runs -/

/-- What the feeder has at a line is what the whole one has, or what attempts of its transaction leave
    of that. -/
theorem Refines.has {cfg : Config} {s : St} {x : Whole} (h : Refines cfg s x) : ∃ o, Has s o ∧
    (o = x.own ∨ Tries (startBody cfg.host cfg.maxFeed) s.db x.own o ∨ ∃ only v v',
      x.taken = some (only, v) ∧ Tries (reapBody cfg.host cfg.maxFeed only) s.db (x.own, v) (o, v')) := by
  cases h with
  | between _ _ hhas => exact ⟨_, hhas, .inl rfl⟩
  | taken _ _ _ hhas => exact ⟨_, hhas, .inl rfl⟩
  | starting _ _ _ htries hs =>
    obtain ⟨script, o', jobs', err, hr, herr, hhas⟩ := hs.fails
    exact ⟨o', hhas, .inr (.inl (htries.tail ⟨script, jobs', err, hr, herr⟩))⟩
  | reaping _ htries hs =>
    obtain ⟨turns, jobs', o', v', err, hr, herr, hhas, -⟩ := hs.brokenOff
    exact ⟨o', hhas, .inr (.inr ⟨_, _, v', rfl, htries.tail ⟨turns, jobs', err, hr, herr⟩⟩)⟩
  | left _ _ hhas => exact ⟨_, hhas, .inl rfl⟩

/-- A run is a path of the whole feeder. -/
theorem refines_run {cfg : Config} (retries : Nat) {as : List Label} {s₀ s : St} (h0 : Initial s₀)
    (h : exec (step cfg) as s₀ = some s) : ∃ x, Path (Whole.Moves cfg retries)
      (trace (step cfg) changeOf as s₀) { db := s₀.db } x ∧ Refines cfg s x := by
  obtain ⟨hwork, hchildren, hprocs, hpc, -⟩ := h0
  have hstep : ∀ s l t x, Refines cfg s x → step cfg s l = some t →
      Answered cfg retries x (changeOf s l t) t := fun _ _ _ _ hr ht => refines_step hr ht
  refine exec_simulated hstep ?_ h
  refine .between hwork (by rw [hpc]; rfl) ⟨hchildren.symm, ?_⟩
  rw [hprocs]
  rfl

/-- **The transactions of the feeder are whole.**  Whatever signals come and processes do between
    its lines, and whatever attempts fail before their commit and are run again at once: the tables
    a run commits, and those the others make of them, are in this order tables of a feeder whose
    transactions are single steps; and when no transaction is open, it has the same `@children` and
    has made the same calls of `JobRunner#run`. -/
theorem transactions_are_whole (cfg : Config) (retries : Nat) (as : List Label) (s₀ s : St)
    (h0 : Initial s₀) (h : exec (step cfg) as s₀ = some s) :
    ∃ x, Path (Whole.Moves cfg retries) (trace (step cfg) changeOf as s₀) { db := s₀.db } x ∧
      x.db = s.db ∧ (s.work = none → x.own.children = s.children ∧
        x.own.launches.map (fun l => (l.jid, l.pid)) = ranOf s.procs) := by
  obtain ⟨x, hpath, hr⟩ := refines_run retries h0 h
  refine ⟨x, hpath, ?_, fun hwork => ?_⟩
  · cases hr <;> rfl
  · cases hr with
    | between _ _ hhas => exact hhas
    | taken _ _ _ hhas => exact hhas
    | starting hopen => simp [hwork] at hopen
    | reaping hopen => simp [hwork] at hopen
    | left _ _ hhas => exact hhas

/-! ## What the blocks keep -/

section Within

variable {cfg : Config}

theorem startBody_within (script : List Fork) (db : Jobs) (o : Own) (ho : System.Within cfg.maxFeed o) :
    System.Within cfg.maxFeed (startBody cfg.host cfg.maxFeed script db o).1.2 :=
  System.startJobs_within ho

theorem reapBody_within {only : Bool} (turns : List Turn) (db : Jobs) (p : Own × Vars)
    (hp : System.Within cfg.maxFeed p.1) :
    System.Within cfg.maxFeed (reapBody cfg.host cfg.maxFeed only turns db p).1.2.1 :=
  System.reapLoop_within hp

/-- Attempts of either transaction that fail leave at most `max_feed` children. -/
theorem within_start {db : Jobs} {o o' : Own} (ho : System.Within cfg.maxFeed o)
    (h : Tries (startBody cfg.host cfg.maxFeed) db o o') : System.Within cfg.maxFeed o' :=
  Tries.keeps startBody_within h ho

theorem within_reap {only : Bool} {db : Jobs} {p p' : Own × Vars} (hp : System.Within cfg.maxFeed p.1)
    (h : Tries (reapBody cfg.host cfg.maxFeed only) db p p') : System.Within cfg.maxFeed p'.1 :=
  Tries.keeps (I := fun p : Own × Vars => System.Within cfg.maxFeed p.1) reapBody_within h hp

/-- And so does each move of the whole feeder. -/
theorem within_moves {retries : Nat} {e : Option Change} {x y : Whole}
    (hw : System.Within cfg.maxFeed x.own) (h : Whole.Moves cfg retries e x y) :
    System.Within cfg.maxFeed y.own := by
  cases h with
  | start rounds ht => exact transaction_keeps startBody_within rfl hw ht
  | @wait _ o _ _ only w ht =>
    have htake : System.Within cfg.maxFeed (takeChild w o { cid := none, job := none }).1.1 :=
      System.takeChild_within hw
    rwa [ht] at htake
  | reap rounds ht =>
    exact transaction_keeps (I := fun p : Own × Vars => System.Within cfg.maxFeed p.1) reapBody_within
      rfl hw ht
  | others => exact hw
  | leaveStart ht => exact within_start hw ht
  | leaveReap ht => exact within_reap hw ht

/-- **At no line** of any run does the feeder have more than `max_feed` children: `@children` there is
    what attempts of the whole feeder's transaction leave, and none of these leaves more. -/
theorem children_within_lines (cfg : Config) (as : List Label) (s₀ s : St) (h0 : Initial s₀)
    (h : exec (step cfg) as s₀ = some s) : (s.children.entries.length : Int) ≤ max 0 cfg.maxFeed := by
  obtain ⟨x, hpath, hr⟩ := refines_run 0 h0 h
  have hx : System.Within cfg.maxFeed x.own :=
    hpath.invariant (I := fun x => System.Within cfg.maxFeed x.own) (fun _ _ _ => within_moves)
      (le_max_left 0 _)
  obtain ⟨o, hhas, ho⟩ := hr.has
  rw [← hhas.1]
  rcases ho with rfl | htries | ⟨only, v, v', -, htries⟩
  · exact hx
  · exact within_start hx htries
  · exact within_reap hx htries

end Within

/-! ## A run -/

/-- The one job is started, the transaction fails and is run again, and the job is started once
    more. -/
def startAgain : List Label :=
  startOne ++ [.tick, .fail true, .fork 101 "2005-07-02", .tick, .tick, .tick, .tick]

set_option maxRecDepth 8000 in
/-- The rollback takes back the row and not the child: the whole feeder too has run the job twice,
    in the two attempts of one transaction. -/
theorem start_again_is_whole : ∃ s x, exec (step twoAtATime) startAgain onePending = some s ∧
    Path (Whole.Moves twoAtATime 4) (trace (step twoAtATime) changeOf startAgain onePending)
      { db := onePending.db } x ∧
    x.db = s.db ∧ x.own.children.entries.length = 2 ∧
    x.own.launches.map (fun l => (l.jid, l.pid)) = [(1, 100), (1, 101)] := by
  have hrun : (exec (step twoAtATime) startAgain onePending).any (fun s => s.work.isNone &&
      s.children.entries.length == 2 && ranOf s.procs == [(1, 100), (1, 101)]) = true := by decide
  obtain ⟨s, hs, hobs⟩ := exists_of_any hrun
  simp only [Bool.and_eq_true, beq_iff_eq, Option.isNone_iff_eq_none] at hobs
  obtain ⟨x, hpath, hdb, hwhole⟩ :=
    transactions_are_whole twoAtATime 4 startAgain onePending s initial_onePending hs
  obtain ⟨hchildren, hlaunches⟩ := hwhole hobs.1.1
  exact ⟨s, x, hs, hpath, hdb, hchildren ▸ hobs.1.2, hlaunches.trans hobs.2⟩

end RubyQueue.Daemon
