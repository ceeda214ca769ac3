/-
  What a daemon feeder knows of the processes it has started: the invariant of `Daemon`'s runs.

  A process whose command was passed to `JobRunner#run` is always in one of three places: its
  completion is recorded, its pid is in `@children` with the row running, or it is in the hand of the
  line being executed (`Core.covered`).  The third place is what a signal can lose, since the trap
  handler decides from `@children` alone, and what the rollback of a transaction can lose, since it
  takes back the rows and not `@children`.

  * `Core`, `Inv`  — the invariant, with what a transaction that is run again starts from;
  * `Keeps`        — the steps that keep it;
  * `inv_step`, `inv_reach` — one step, and a whole run;
  * `step_log`, `step_procs` — what a step can do to the record and to the processes.
-/
import RubyQueue.Completions
import RubyQueue.Daemon
import Mathlib.Data.List.Perm.Subperm

namespace RubyQueue.Daemon

open RubyQueue.JobQueue RubyQueue.Qdb RubyQueue.Feeder RubyQueue.Run

/-! ## What the feeder knows of its processes -/

/-- The reported process whose entry may still be in `@children`. -/
def Pc.cur : Pc → Option Nat
  | .took _ n _ => some n
  | .finished _ t => some t.proc
  | .recording _ t _ => some t.proc
  | .recorded _ t _ => some t.proc
  | .tookMore _ n _ _ => some n
  | _ => none

/-- The process that is known by a variable only: it was run and is not yet in `@children`, or it was
    reported and its job is not yet recorded. -/
def Pc.hand : Pc → Option Nat
  | .ran _ _ _ n => some n
  | .took _ n _ => some n
  | .finished _ t => some t.proc
  | .recording _ t _ => some t.proc
  | .tookMore _ n _ _ => some n
  | _ => none

/-- The pid whose row does not (yet, or any more) say that it runs. -/
def Pc.unsettled : Pc → Option Nat
  | .entered _ _ e _ => some e.pid
  | .recorded _ t _ => some t.done.waited.cid
  | _ => none

/-- The pid about to be deleted from `@children`. -/
def Pc.erasing : Pc → Option Nat
  | .recorded _ t _ => some t.done.waited.cid
  | _ => none

/-- All four. -/
def Pc.marks (pc : Pc) : Option Nat × Option Nat × Option Nat × Option Nat :=
  (pc.cur, pc.hand, pc.unsettled, pc.erasing)

/-- The feeder is in a block of a transaction. -/
def Pc.inBlock : Pc → Bool
  | .starting _ => true
  | .forked _ _ _ _ => true
  | .ran _ _ _ _ => true
  | .entered _ _ _ _ => true
  | .recording _ _ _ => true
  | .recorded _ _ _ => true
  | .deleted _ _ _ => true
  | .looping _ _ _ => true
  | .tookMore _ _ _ _ => true
  | _ => false

/-- The reported child a block was entered with, or has taken since. -/
def Caller.child : Caller → Option Nat
  | .loop t _ => some t.proc
  | _ => none

def Pc.child : Pc → Option Nat
  | .took _ n _ => some n
  | .finished _ t => some t.proc
  | .recording _ t _ => some t.proc
  | .recorded _ t _ => some t.proc
  | .deleted _ t _ => some t.proc
  | .looping _ t _ => some t.proc
  | .tookMore _ n _ _ => some n
  | .starting k => k.child
  | .forked k _ _ _ => k.child
  | .ran k _ _ _ => k.child
  | .entered k _ _ _ => k.child
  | _ => none

/-- The pid `@children` is about to be asked for. -/
def Pc.awaited : Pc → Option Nat
  | .took _ _ w => some w.cid
  | .tookMore _ _ w _ => some w.cid
  | _ => none

/-- The job of process `n` was recorded. -/
def St.Logged (s : St) (n : Nat) : Prop := ∃ u ∈ s.pending ++ s.done, u.proc = n

/-- The pid of process `n` is its own. -/
def St.Live (s : St) (n : Nat) (p : Proc) : Prop := p.state ≠ .reaped ∨ s.pc.cur = some n

/-- Process `n` was forked with this pid for this job. -/
def St.Holds (s : St) (n pid jid : Nat) : Prop :=
  ∃ p, s.procs[n]? = some p ∧ p.pid = pid ∧ p.jid = jid

/-- Its end was not reported. -/
def St.Unreaped (s : St) (n : Nat) : Prop := ∃ p, s.procs[n]? = some p ∧ p.state ≠ .reaped

/-- What is true at one line. -/
def Here (cfg : Config) (s : St) : Prop :=
  match s.pc with
  | .forked _ job e n =>
    getjob cfg.host s.tbl = some job ∧ e.pid ∉ s.children ∧ s.mark < s.procs.length ∧ ¬ s.Logged n ∧
      s.Holds n e.pid job.jid ∧ s.Unreaped n
  | .ran _ job e n =>
    getjob cfg.host s.tbl = some job ∧ e.pid ∉ s.children ∧ s.mark < s.procs.length ∧ ¬ s.Logged n ∧
      s.Holds n e.pid job.jid ∧ s.Unreaped n
  | .entered _ job e _ =>
    getjob cfg.host s.tbl = some job ∧ s.mark < s.procs.length ∧
      s.children.lookup e.pid = some (launched cfg.host e job)
  | .took _ n w => ∃ jid, s.Holds n w.cid jid
  | .tookMore _ n w _ => ∃ jid, s.Holds n w.cid jid
  | .finished _ t =>
    s.Holds t.proc t.done.waited.cid t.done.child.jid ∧ ¬ s.Logged t.proc ∧
      s.children.lookup t.done.waited.cid = some t.done.job
  | .recording _ t _ =>
    s.Holds t.proc t.done.waited.cid t.done.child.jid ∧ ¬ s.Logged t.proc ∧
      Runs s.tbl cfg.host t.done.waited.cid t.done.child.jid
  | .recorded _ t _ =>
    s.Holds t.proc t.done.waited.cid t.done.child.jid ∧ s.Logged t.proc
  | .gone _ => s.children.entries = []
  | _ => True

/-- **The invariant** between the processes, `@children` and the table. -/
structure Core (cfg : Config) (s : St) : Prop where
  distinct : ∀ i j p q, s.procs[i]? = some p → s.procs[j]? = some q → s.Live i p → s.Live j q →
    p.pid = q.pid → i = j
  entry : ∀ c job, s.children.lookup c = some job → ∃ n p, s.procs[n]? = some p ∧ p.pid = c ∧
    p.jid = job.jid ∧ s.Live n p ∧ (s.Logged n → s.pc.erasing = some c)
  runs : ∀ c job, s.children.lookup c = some job → s.pc.unsettled ≠ some c →
    Runs s.tbl cfg.host c job.jid
  covered : ∀ n p, s.procs[n]? = some p → p.ran = true →
    s.Logged n ∨ (∃ job, s.children.lookup p.pid = some job ∧ s.Live n p) ∨ s.pc.hand = some n
  known : ∀ n, s.Logged n → n < s.procs.length
  pend : ∀ u ∈ s.pending, FinishedIn s.tbl u.jid
  block : s.work.isSome = s.pc.inBlock
  closed : s.work = none → s.pending = []
  here : Here cfg s

/-! ## Steps that leave `@children` and the processes alone -/

section Steps

variable {cfg : Config} {s : St}

/-- The rule for a step that changes the line, the table or the record of what happened. -/
theorem Core.same {s' : St} (h : Core cfg s) (hchildren : s'.children = s.children)
    (hprocs : s'.procs = s.procs) (hmarks : s'.pc.marks = s.pc.marks)
    (hlog : ∀ n, s'.Logged n ↔ s.Logged n)
    (hruns : ∀ c job, s.children.lookup c = some job → Runs s.tbl cfg.host c job.jid →
      Runs s'.tbl cfg.host c job.jid)
    (hpend : ∀ u ∈ s'.pending, FinishedIn s'.tbl u.jid)
    (hblock : s'.work.isSome = s'.pc.inBlock) (hclosed : s'.work = none → s'.pending = [])
    (hhere : Here cfg s') : Core cfg s' := by
  obtain ⟨hcur, hhand, hset, herase⟩ : s'.pc.cur = s.pc.cur ∧ s'.pc.hand = s.pc.hand ∧
      s'.pc.unsettled = s.pc.unsettled ∧ s'.pc.erasing = s.pc.erasing := by
    simpa only [Pc.marks, Prod.mk.injEq] using hmarks
  have hlive : ∀ n p, s'.Live n p ↔ s.Live n p := by
    intro n p
    unfold St.Live
    rw [hcur]
  refine ⟨?_, ?_, ?_, ?_, ?_, hpend, hblock, hclosed, hhere⟩
  · intro i j p q hi hj hp hq
    rw [hprocs] at hi hj
    exact h.distinct i j p q hi hj ((hlive i p).mp hp) ((hlive j q).mp hq)
  · intro c job hl
    rw [hchildren] at hl
    obtain ⟨n, p, hn, hpid, hjid, hlv, hlg⟩ := h.entry c job hl
    rw [hprocs, herase]
    exact ⟨n, p, hn, hpid, hjid, (hlive n p).mpr hlv, fun h' => hlg ((hlog n).mp h')⟩
  · intro c job hl hne
    rw [hchildren] at hl
    rw [hset] at hne
    exact hruns c job hl (h.runs c job hl hne)
  · intro n p hn hran
    rw [hprocs] at hn
    rw [hchildren, hhand, hlog, hlive]
    exact h.covered n p hn hran
  · intro n hn
    rw [hprocs]
    exact h.known n ((hlog n).mp hn)

/-- Only the line changes. -/
theorem Core.move (h : Core cfg s) {pc : Pc} (hmarks : pc.marks = s.pc.marks)
    (hblock : pc.inBlock = s.pc.inBlock) (hhere : Here cfg { s with pc := pc }) :
    Core cfg { s with pc := pc } :=
  h.same rfl rfl hmarks (fun _ => Iff.rfl) (fun _ _ _ h => h) h.pend
    (h.block.trans hblock.symm) h.closed hhere

/-- A transaction begins. -/
theorem Core.begin (h : Core cfg s) (hwork : s.work = none) {pc : Pc}
    (hmarks : pc.marks = s.pc.marks) (hblock : pc.inBlock = true)
    (hhere : Here cfg (s.begin pc)) : Core cfg (s.begin pc) := by
  have htbl : (s.begin pc).tbl = s.tbl := by simp [St.begin, St.tbl, hwork]
  refine h.same rfl rfl hmarks (fun _ => Iff.rfl) ?_ ?_ hblock.symm ?_ hhere
  · intro c job _ hr
    rw [htbl]
    exact hr
  · rw [htbl]
    exact h.pend
  · intro h'
    cases h'

/-- A transaction is committed: what it recorded stays recorded. -/
theorem Core.commit (h : Core cfg s) {pc : Pc} (hmarks : pc.marks = s.pc.marks)
    (hblock : pc.inBlock = false) (hhere : Here cfg (s.commit pc)) : Core cfg (s.commit pc) := by
  have hfilter : s.pending.filter (fun u => decide (FinishedIn s.tbl u.jid)) = s.pending :=
    List.filter_eq_self.mpr fun u hu => by simpa using h.pend u hu
  have hlog : ∀ n, (s.commit pc).Logged n ↔ s.Logged n := by
    intro n
    unfold St.Logged St.commit
    rw [hfilter]
    simp only [List.nil_append, List.mem_append]
    constructor <;> rintro ⟨u, hu | hu, hn⟩
    · exact ⟨u, .inr hu, hn⟩
    · exact ⟨u, .inl hu, hn⟩
    · exact ⟨u, .inr hu, hn⟩
    · exact ⟨u, .inl hu, hn⟩
  refine h.same rfl rfl hmarks hlog (fun _ _ _ h => h) ?_ hblock.symm (fun _ => rfl) hhere
  intro u hu
  exact absurd hu List.not_mem_nil

/-- Others change the table. -/
theorem Core.others (h : Core cfg s) {jobs : Jobs} (hwork : s.work = none)
    (hruns : ∀ c job, s.children.lookup c = some job → Runs jobs cfg.host c job.jid) :
    Core cfg { s with db := jobs } := by
  have htbl : St.tbl { s with db := jobs } = jobs := by simp [St.tbl, hwork]
  refine h.same rfl rfl rfl (fun _ => Iff.rfl) ?_ ?_ h.block h.closed ?_
  · intro c job hl _
    rw [htbl]
    exact hruns c job hl
  · intro u hu
    have hu : u ∈ s.pending := hu
    rw [h.closed hwork] at hu
    exact absurd hu List.not_mem_nil
  · -- The lines that speak of the table are in a block, where others do not get to write.
    have hhere := h.here
    have hblock := h.block
    rw [hwork] at hblock
    unfold Here at hhere ⊢
    cases hpc : s.pc <;> rw [hpc] at hhere hblock <;> first | exact hhere | cases hblock

/-! ## Steps that change the processes -/

/-- The two lists have the same processes, as far as pids, jobs and reports are concerned. -/
def Alike (ps qs : List Proc) : Prop :=
  ∀ (i : Nat) (p : Proc), ps[i]? = some p → ∃ q : Proc, qs[i]? = some q ∧ q.pid = p.pid ∧
    q.jid = p.jid ∧ q.ran = p.ran ∧ (q.state = .reaped ↔ p.state = .reaped)

theorem Alike.set {ps : List Proc} {n : Nat} {p : Proc} {st : ProcState} (hn : ps[n]? = some p)
    (hst : st = .reaped ↔ p.state = .reaped) : Alike ps (ps.set n { p with state := st }) := by
  intro i q hi
  by_cases hin : i = n
  · subst hin
    obtain rfl : p = q := Option.some.inj (hn.symm.trans hi)
    have hlt : i < ps.length := (List.getElem?_eq_some_iff.mp hi).1
    exact ⟨_, List.getElem?_set_self hlt, rfl, rfl, rfl, hst⟩
  · exact ⟨q, by rw [List.getElem?_set_ne (Ne.symm hin), hi], rfl, rfl, rfl, Iff.rfl⟩

theorem Alike.set_symm {ps : List Proc} {n : Nat} {p : Proc} {st : ProcState}
    (hn : ps[n]? = some p) (hst : st = .reaped ↔ p.state = .reaped) :
    Alike (ps.set n { p with state := st }) ps := by
  intro i q hi
  by_cases hin : i = n
  · subst hin
    have hlt : i < ps.length := (List.getElem?_eq_some_iff.mp hn).1
    rw [List.getElem?_set_self hlt] at hi
    obtain rfl := Option.some.inj hi
    exact ⟨p, hn, rfl, rfl, rfl, hst.symm⟩
  · rw [List.getElem?_set_ne (Ne.symm hin)] at hi
    exact ⟨q, hi, rfl, rfl, rfl, Iff.rfl⟩

theorem Core.alike (h : Core cfg s) {ps : List Proc} (hps : Alike s.procs ps)
    (hps' : Alike ps s.procs) (hlen : ps.length = s.procs.length) :
    Core cfg { s with procs := ps } := by
  have hlive : ∀ (n : Nat) (p q : Proc), (q.state = .reaped ↔ p.state = .reaped) → s.Live n p →
      s.Live n q := by
    intro n p q hst hl
    exact hl.imp (fun hne heq => hne (hst.mp heq)) id
  refine ⟨?_, ?_, h.runs, ?_, fun n hn => hlen ▸ h.known n hn, h.pend, h.block, h.closed, ?_⟩
  · intro i j p q hi hj hp hq hpid
    obtain ⟨p', hi', hpid', -, -, hst⟩ := hps' i p hi
    obtain ⟨q', hj', hqid', -, -, hst'⟩ := hps' j q hj
    exact h.distinct i j p' q' hi' hj' (hlive i p p' hst hp) (hlive j q q' hst' hq)
      (by rw [hpid', hqid', hpid])
  · intro c job hl
    obtain ⟨n, p, hn, hpid, hjid, hlv, hlg⟩ := h.entry c job hl
    obtain ⟨q, hq, hqid, hqjid, -, hst⟩ := hps n p hn
    exact ⟨n, q, hq, hqid.trans hpid, hqjid.trans hjid, hlive n p q hst hlv, hlg⟩
  · intro n q hn hran
    obtain ⟨p, hp, hpid, -, hpran, hst⟩ := hps' n q hn
    rcases h.covered n p hp (hpran.trans hran) with hl | ⟨job, hl, hlv⟩ | hh
    · exact .inl hl
    · exact .inr (.inl ⟨job, hpid ▸ hl, hlive n p q hst.symm hlv⟩)
    · exact .inr (.inr hh)
  · have hhere := h.here
    unfold Here at hhere ⊢
    have hholds : ∀ {n pid jid}, s.Holds n pid jid → St.Holds { s with procs := ps } n pid jid := by
      rintro n pid jid ⟨p, hn, hpid, hjid⟩
      obtain ⟨q, hq, hqid, hqjid, -⟩ := hps n p hn
      exact ⟨q, hq, hqid.trans hpid, hqjid.trans hjid⟩
    have hunreaped : ∀ {n}, s.Unreaped n → St.Unreaped { s with procs := ps } n := by
      rintro n ⟨p, hn, hst⟩
      obtain ⟨q, hq, -, -, -, hqst⟩ := hps n p hn
      exact ⟨q, hq, fun heq => hst (hqst.mp heq)⟩
    cases hpc : s.pc <;> rw [hpc] at hhere
    case forked =>
      obtain ⟨hget, hnew, hlt, hlog, hh, hu⟩ := hhere
      exact ⟨hget, hnew, hlen ▸ hlt, hlog, hholds hh, hunreaped hu⟩
    case ran =>
      obtain ⟨hget, hnew, hlt, hlog, hh, hu⟩ := hhere
      exact ⟨hget, hnew, hlen ▸ hlt, hlog, hholds hh, hunreaped hu⟩
    case entered =>
      obtain ⟨hget, hlt, hl⟩ := hhere
      exact ⟨hget, hlen ▸ hlt, hl⟩
    case took =>
      obtain ⟨jid, hh⟩ := hhere
      exact ⟨jid, hholds hh⟩
    case tookMore =>
      obtain ⟨jid, hh⟩ := hhere
      exact ⟨jid, hholds hh⟩
    case finished => exact ⟨hholds hhere.1, hhere.2⟩
    case recording => exact ⟨hholds hhere.1, hhere.2⟩
    case recorded => exact ⟨hholds hhere.1, hhere.2⟩
    all_goals exact hhere

/-- A process stops, goes on or ends. -/
theorem Core.proc (h : Core cfg s) {n : Nat} {p : Proc} {st : ProcState}
    (hn : s.procs[n]? = some p) (hmove : p.state.moves st = true) :
    Core cfg { s with procs := s.procs.set n { p with state := st } } := by
  obtain ⟨hp, hst'⟩ := ProcState.moves_not_reaped hmove
  have hst : st = .reaped ↔ p.state = .reaped := ⟨fun h => absurd h hst', fun h => absurd h hp⟩
  exact h.alike (Alike.set hn hst) (Alike.set_symm hn hst) (List.length_set ..)

/-- `waitpid2` returns a process: its pid stays its own as long as it is in hand. -/
theorem Core.report (h : Core cfg s) {n : Nat} {p p' : Proc} {pc : Pc} (hn : s.procs[n]? = some p)
    (hpid : p'.pid = p.pid) (hjid : p'.jid = p.jid) (hran : p'.ran = p.ran)
    (hst : p.state ≠ .reaped) (hcur : s.pc.cur = none) (hhand : s.pc.hand = none)
    (hset : s.pc.unsettled = none) (herase : s.pc.erasing = none) (hcur' : pc.cur = some n)
    (hblock : pc.inBlock = s.pc.inBlock)
    (hhere : Here cfg { s with procs := s.procs.set n p', pc := pc }) :
    Core cfg { s with procs := s.procs.set n p', pc := pc } := by
  have hlt : n < s.procs.length := (List.getElem?_eq_some_iff.mp hn).1
  -- Each process is as live as it was: the reported one because it is in hand.
  have hback : ∀ i q', (s.procs.set n p')[i]? = some q' → ∃ q, s.procs[i]? = some q ∧
      q'.pid = q.pid ∧ q'.jid = q.jid ∧ q'.ran = q.ran ∧
      (St.Live { s with procs := s.procs.set n p', pc := pc } i q' ↔ s.Live i q) := by
    intro i q' hi
    by_cases hin : i = n
    · subst hin
      rw [List.getElem?_set_self hlt] at hi
      obtain rfl := Option.some.inj hi
      exact ⟨p, hn, hpid, hjid, hran, iff_of_true (.inr hcur') (.inl hst)⟩
    · rw [List.getElem?_set_ne (Ne.symm hin)] at hi
      refine ⟨q', hi, rfl, rfl, rfl, ?_⟩
      have hne : some n ≠ some i := fun heq => hin (Option.some.inj heq).symm
      unfold St.Live
      rw [hcur, hcur']
      simp [hne]
  have hforth : ∀ i q, s.procs[i]? = some q → ∃ q', (s.procs.set n p')[i]? = some q' ∧
      q'.pid = q.pid ∧ q'.jid = q.jid ∧
      (St.Live { s with procs := s.procs.set n p', pc := pc } i q' ↔ s.Live i q) := by
    intro i q hi
    have hlt' : i < (s.procs.set n p').length := by
      rw [List.length_set]
      exact (List.getElem?_eq_some_iff.mp hi).1
    obtain ⟨q', hq'⟩ : ∃ q', (s.procs.set n p')[i]? = some q' :=
      ⟨_, List.getElem?_eq_getElem hlt'⟩
    obtain ⟨q₂, hq₂, hpid', hjid', -, hlive⟩ := hback i q' hq'
    obtain rfl := Option.some.inj (hq₂.symm.trans hi)
    exact ⟨q', hq', hpid', hjid', hlive⟩
  refine ⟨?_, ?_, ?_, ?_, ?_, h.pend, h.block.trans hblock.symm, h.closed, hhere⟩
  · intro i j a b hi hj ha hb hab
    obtain ⟨a', hi', hpa, -, -, hla⟩ := hback i a hi
    obtain ⟨b', hj', hpb, -, -, hlb⟩ := hback j b hj
    exact h.distinct i j a' b' hi' hj' (hla.mp ha) (hlb.mp hb) (by rw [← hpa, ← hpb, hab])
  · intro c job hl
    obtain ⟨m, q, hq, hqid, hqjid, hlv, hlg⟩ := h.entry c job hl
    obtain ⟨q', hq', hpid', hjid', hlive⟩ := hforth m q hq
    refine ⟨m, q', hq', hpid'.trans hqid, hjid'.trans hqjid, hlive.mpr hlv, ?_⟩
    intro hlog
    have hc := hlg hlog
    rw [herase] at hc
    cases hc
  · intro c job hl _
    exact h.runs c job hl (by rw [hset]; simp)
  · intro m q' hm hran'
    obtain ⟨q, hq, hpid', -, hran'', hlive⟩ := hback m q' hm
    rcases h.covered m q hq (hran''.symm.trans hran') with hl | ⟨job, hl, hlv⟩ | hh
    · exact .inl hl
    · exact .inr (.inl ⟨job, hpid' ▸ hl, hlive.mpr hlv⟩)
    · rw [hhand] at hh
      cases hh
  · intro m hm
    show m < (s.procs.set n p').length
    rw [List.length_set]
    exact h.known m hm

theorem getElem?_concat {ps : List Proc} {a b : Proc} {i : Nat} (h : (ps ++ [a])[i]? = some b) :
    ps[i]? = some b ∨ (i = ps.length ∧ b = a) := by
  by_cases hi : i < ps.length
  · rw [List.getElem?_append_left hi] at h
    exact .inl h
  · rw [List.getElem?_append_right (Nat.le_of_not_lt hi)] at h
    have hi0 : i - ps.length = 0 := by
      have := (List.getElem?_eq_some_iff.mp h).1
      simp only [List.length_singleton] at this
      omega
    rw [hi0] at h
    exact .inr ⟨by omega, (Option.some.inj h).symm⟩

theorem getElem?_of_mem_left {ps : List Proc} {a p : Proc} {i : Nat} (h : ps[i]? = some p) :
    (ps ++ [a])[i]? = some p := by
  rw [List.getElem?_append_left (List.getElem?_eq_some_iff.mp h).1, h]

/-- A process is forked, with a pid no process has. -/
theorem Core.fork (h : Core cfg s) {k : Caller} {job : Row} {e : Fork} (hpc : s.pc = .starting k)
    (hjob : getjob cfg.host s.tbl = some job) (hmark : s.mark ≤ s.procs.length)
    (hnew : ∀ p ∈ s.procs, p.state ≠ .reaped → p.pid ≠ e.pid) :
    Core cfg { s with procs := s.procs ++ [{ pid := e.pid, jid := job.jid }],
                      pc := .forked k job e s.procs.length } := by
  have hunreaped : ∀ {i p}, s.Live i p → p.state ≠ .reaped := by
    intro i p hl
    unfold St.Live at hl
    rw [hpc] at hl
    exact hl.resolve_right (by simp [Pc.cur])
  have hlog : ¬ s.Logged s.procs.length := fun hl => Nat.lt_irrefl _ (h.known _ hl)
  refine ⟨?_, ?_, ?_, ?_, ?_, h.pend, ?_, h.closed, ?_⟩
  · intro i j p q hi hj hp hq hpq
    have hp' : p.state ≠ .reaped := hp.resolve_right (by simp [Pc.cur])
    have hq' : q.state ≠ .reaped := hq.resolve_right (by simp [Pc.cur])
    rcases getElem?_concat hi with hi | ⟨rfl, rfl⟩
    · rcases getElem?_concat hj with hj | ⟨rfl, rfl⟩
      · exact h.distinct i j p q hi hj (.inl hp') (.inl hq') hpq
      · exact absurd hpq (hnew p (List.mem_of_getElem? hi) hp')
    · rcases getElem?_concat hj with hj | ⟨rfl, rfl⟩
      · exact absurd hpq.symm (hnew q (List.mem_of_getElem? hj) hq')
      · rfl
  · intro c job' hl
    obtain ⟨n, p, hn, hpid, hjid, hlv, hlg⟩ := h.entry c job' hl
    refine ⟨n, p, getElem?_of_mem_left hn, hpid, hjid, .inl (hunreaped hlv), ?_⟩
    intro hlog'
    have hc := hlg hlog'
    rw [hpc] at hc
    cases hc
  · intro c job' hl _
    exact h.runs c job' hl (by rw [hpc]; simp [Pc.unsettled])
  · intro n p hn hran
    rcases getElem?_concat hn with hn | ⟨rfl, rfl⟩
    · rcases h.covered n p hn hran with hl | ⟨job', hl, hlv⟩ | hh
      · exact .inl hl
      · exact .inr (.inl ⟨job', hl, .inl (hunreaped hlv)⟩)
      · rw [hpc] at hh
        cases hh
    · cases hran
  · intro n hn
    have hlt := h.known n hn
    show n < (s.procs ++ [_]).length
    rw [List.length_append]
    omega
  · rw [h.block, hpc]
    rfl
  · refine ⟨hjob, ?_, ?_, hlog, ⟨_, List.getElem?_concat_length, rfl, rfl⟩,
      ⟨_, List.getElem?_concat_length, by simp⟩⟩
    · intro hmem
      obtain ⟨job', hl⟩ := Option.isSome_iff_exists.mp (AList.lookup_isSome.mpr hmem)
      obtain ⟨n, p, hn, hpid, -, hlv, -⟩ := h.entry _ job' hl
      exact hnew p (List.mem_of_getElem? hn) (hunreaped hlv) hpid
    · show s.mark < (s.procs ++ [_]).length
      rw [List.length_append, List.length_singleton]
      omega

/-- `jr.run`. -/
theorem Core.run (h : Core cfg s) {k : Caller} {job : Row} {e : Fork} {n : Nat}
    (hpc : s.pc = .forked k job e n) :
    Core cfg { s with procs := s.procs.modify n fun p => { p with ran := true },
                      pc := .ran k job e n } := by
  have hhere := h.here
  unfold Here at hhere
  rw [hpc] at hhere
  obtain ⟨hget, hnew, hmark, hlog, ⟨p, hn, hpid, hjid⟩, ⟨p', hn', hst⟩⟩ := hhere
  obtain rfl := Option.some.inj (hn.symm.trans hn')
  have hmod : ∀ i, (s.procs.modify n fun p => { p with ran := true })[i]? =
      (s.procs[i]?).map fun q => if n = i then { q with ran := true } else q := by
    intro i
    rw [List.getElem?_modify]
    split <;> simp
  have hback : ∀ {i : Nat} {q' : Proc}, (s.procs.modify n fun p => { p with ran := true })[i]? = some q' →
      ∃ q : Proc, s.procs[i]? = some q ∧ q'.pid = q.pid ∧ q'.jid = q.jid ∧ q'.state = q.state ∧
        (i ≠ n → q' = q) := by
    intro i q' hi
    rw [hmod, Option.map_eq_some_iff] at hi
    obtain ⟨q, hq, rfl⟩ := hi
    refine ⟨q, hq, ?_⟩
    split
    · rename_i hin
      exact ⟨rfl, rfl, rfl, fun hne => absurd hin.symm hne⟩
    · exact ⟨rfl, rfl, rfl, fun _ => rfl⟩
  have hforth : ∀ {i : Nat} {q : Proc}, s.procs[i]? = some q → ∃ q' : Proc,
      (s.procs.modify n fun p => { p with ran := true })[i]? = some q' ∧ q'.pid = q.pid ∧
        q'.jid = q.jid ∧ q'.state = q.state := by
    intro i q hi
    rw [hmod, hi]
    refine ⟨_, rfl, ?_⟩
    split <;> exact ⟨rfl, rfl, rfl⟩
  have hlive : ∀ {i : Nat} {q q' : Proc}, q'.state = q.state →
      (q'.state ≠ .reaped ∨ none = some i ↔ s.Live i q) := by
    intro i q q' hst'
    unfold St.Live
    rw [hst', hpc]
    rfl
  refine ⟨?_, ?_, ?_, ?_, ?_, h.pend, ?_, h.closed, ?_⟩
  · intro i j a b hi hj ha hb hab
    obtain ⟨a', hi', hpa, -, hsa, -⟩ := hback hi
    obtain ⟨b', hj', hpb, -, hsb, -⟩ := hback hj
    exact h.distinct i j a' b' hi' hj' ((hlive hsa).mp ha) ((hlive hsb).mp hb)
      (by rw [← hpa, ← hpb, hab])
  · intro c job' hl
    obtain ⟨m, q, hq, hqid, hqjid, hlv, hlg⟩ := h.entry c job' hl
    obtain ⟨q', hq', hpid', hjid', hsq⟩ := hforth hq
    refine ⟨m, q', hq', hpid'.trans hqid, hjid'.trans hqjid, (hlive hsq).mpr hlv, ?_⟩
    intro hlog'
    have hc := hlg hlog'
    rw [hpc] at hc
    cases hc
  · intro c job' hl _
    exact h.runs c job' hl (by rw [hpc]; simp [Pc.unsettled])
  · intro m q' hm hran
    by_cases hmn : m = n
    · exact .inr (.inr (congrArg some hmn.symm))
    · obtain ⟨q, hq, -, -, hsq, heq⟩ := hback hm
      obtain rfl := heq hmn
      rcases h.covered m q' hq hran with hl | ⟨job', hl, hlv⟩ | hh
      · exact .inl hl
      · exact .inr (.inl ⟨job', hl, (hlive hsq).mpr hlv⟩)
      · rw [hpc] at hh
        cases hh
  · intro m hm
    show m < (s.procs.modify n _).length
    rw [List.length_modify]
    exact h.known m hm
  · rw [h.block, hpc]
    rfl
  · obtain ⟨q', hq', hqid, hqjid, hsq⟩ := hforth hn
    refine ⟨hget, hnew, ?_, hlog, ⟨q', hq', hqid.trans hpid, hqjid.trans hjid⟩,
      ⟨q', hq', hsq ▸ hst⟩⟩
    show s.mark < (s.procs.modify n _).length
    rw [List.length_modify]
    exact hmark

/-- `@children[cid] = job`. -/
theorem Core.insert (h : Core cfg s) {k : Caller} {job : Row} {e : Fork} {n : Nat}
    (hpc : s.pc = .ran k job e n) :
    Core cfg { s with children := s.children.insert e.pid (launched cfg.host e job),
                      pc := .entered k job e n } := by
  have hhere := h.here
  unfold Here at hhere
  rw [hpc] at hhere
  obtain ⟨hget, hnew, hmark, hlog, ⟨p, hn, hpid, hjid⟩, ⟨p', hn', hst⟩⟩ := hhere
  obtain rfl := Option.some.inj (hn.symm.trans hn')
  have hne : ∀ {c job'}, s.children.lookup c = some job' → c ≠ e.pid := by
    rintro c job' hl rfl
    exact hnew (AList.lookup_isSome.mp (by rw [hl]; rfl))
  have hlive : ∀ {i q}, s.Live i q →
      St.Live { s with children := s.children.insert e.pid (launched cfg.host e job),
                       pc := .entered k job e n } i q := by
    intro i q hl
    unfold St.Live at hl ⊢
    rw [hpc] at hl
    exact hl
  refine ⟨?_, ?_, ?_, ?_, h.known, h.pend, ?_, h.closed, ⟨hget, hmark, AList.lookup_insert _⟩⟩
  · intro i j a b hi hj ha hb
    unfold St.Live at ha hb
    refine h.distinct i j a b hi hj ?_ ?_
    · exact .inl (ha.resolve_right (by simp [Pc.cur]))
    · exact .inl (hb.resolve_right (by simp [Pc.cur]))
  · intro c job' hl
    by_cases hc : c = e.pid
    · subst hc
      have hl : (s.children.insert e.pid (launched cfg.host e job)).lookup e.pid = some job' := hl
      rw [AList.lookup_insert] at hl
      obtain rfl := Option.some.inj hl
      exact ⟨n, p, hn, hpid, hjid, .inl hst, fun h' => absurd h' hlog⟩
    · have hl : (s.children.insert e.pid (launched cfg.host e job)).lookup c = some job' := hl
      rw [AList.lookup_insert_ne hc] at hl
      obtain ⟨m, q, hq, hqid, hqjid, hlv, hlg⟩ := h.entry c job' hl
      refine ⟨m, q, hq, hqid, hqjid, hlive hlv, ?_⟩
      intro hlog'
      have hc' := hlg hlog'
      rw [hpc] at hc'
      cases hc'
  · intro c job' hl hset
    have hc : c ≠ e.pid := fun heq => hset (congrArg some heq.symm)
    have hl : (s.children.insert e.pid (launched cfg.host e job)).lookup c = some job' := hl
    rw [AList.lookup_insert_ne hc] at hl
    exact h.runs c job' hl (by rw [hpc]; simp [Pc.unsettled])
  · intro m q hm hran
    rcases h.covered m q hm hran with hl | ⟨job', hl, hlv⟩ | hh
    · exact .inl hl
    · refine .inr (.inl ⟨job', ?_, hlive hlv⟩)
      show (s.children.insert e.pid (launched cfg.host e job)).lookup q.pid = some job'
      rw [AList.lookup_insert_ne (hne hl), hl]
    · rw [hpc] at hh
      obtain rfl : n = m := Option.some.inj hh
      obtain rfl := Option.some.inj (hn.symm.trans hm)
      refine .inr (.inl ⟨launched cfg.host e job, ?_, .inl hst⟩)
      show (s.children.insert e.pid (launched cfg.host e job)).lookup p.pid = _
      rw [hpid, AList.lookup_insert]
  · rw [h.block, hpc]
    rfl

/-- A finished row stays finished when another job is launched. -/
theorem FinishedIn.launch {h : Hostname} {jobs : Jobs} {job : Row} (hjob : getjob h jobs = some job)
    (e : Fork) {jid : Nat} (hf : FinishedIn jobs jid) :
    FinishedIn (jobisrunning (launched h e job) jobs) jid := by
  obtain ⟨r, hr, hjid, hstate⟩ := hf
  refine ⟨r, mem_launch hjob e hr ?_, hjid, hstate⟩
  rw [← Bool.not_eq_true, eligible_iff, hstate]
  simp

/-- `@q.jobisrunning job`. -/
theorem Core.jobisrunning (h : Core cfg s) {k : Caller} {job : Row} {e : Fork} {n : Nat}
    (hpc : s.pc = .entered k job e n) :
    Core cfg { s with work := some (JobQueue.jobisrunning (launched cfg.host e job) s.tbl),
                      pc := .starting k } := by
  have hhere := h.here
  unfold Here at hhere
  rw [hpc] at hhere
  obtain ⟨hget, -, hl₀⟩ := hhere
  have hlive : ∀ (i : Nat) (q : Proc),
      (q.state ≠ .reaped ∨ (Pc.starting k).cur = some i) ↔ s.Live i q := by
    intro i q
    unfold St.Live
    rw [hpc]
    rfl
  refine ⟨?_, ?_, ?_, ?_, h.known, ?_, rfl, ?_, trivial⟩
  · intro i j a b hi hj ha hb
    exact h.distinct i j a b hi hj ((hlive i a).mp ha) ((hlive j b).mp hb)
  · intro c job' hl
    obtain ⟨m, q, hq, hqid, hqjid, hlv, hlg⟩ := h.entry c job' hl
    refine ⟨m, q, hq, hqid, hqjid, (hlive m q).mpr hlv, ?_⟩
    intro hlog'
    have hc := hlg hlog'
    rw [hpc] at hc
    cases hc
  · intro c job' hl _
    show Runs (JobQueue.jobisrunning (launched cfg.host e job) s.tbl) cfg.host c job'.jid
    by_cases hc : c = e.pid
    · subst hc
      have hl : s.children.lookup e.pid = some job' := hl
      rw [hl₀] at hl
      obtain rfl := Option.some.inj hl
      exact launch_runs hget e
    · exact Runs.launch hget e (h.runs c job' hl (by rw [hpc]; simpa [Pc.unsettled] using Ne.symm hc))
  · intro m q hm hran
    rcases h.covered m q hm hran with hl | ⟨job', hl, hlv⟩ | hh
    · exact .inl hl
    · exact .inr (.inl ⟨job', hl, (hlive m q).mpr hlv⟩)
    · rw [hpc] at hh
      cases hh
  · intro u hu
    exact FinishedIn.launch hget e (h.pend u hu)
  · intro hw
    cases hw

/-! ## Steps of `reap_jobs` -/

/-- The entry of a reported pid is that of the reported process. -/
theorem Core.taken (h : Core cfg s) {n : Nat} {w : Waited} {job : Row} (hcur : s.pc.cur = some n)
    (hset : s.pc.unsettled = none) (herase : s.pc.erasing = none) (hheld : ∃ jid, s.Holds n w.cid jid)
    (hl : s.children.lookup w.cid = some job) :
    s.Holds n w.cid job.jid ∧ ¬ s.Logged n ∧ Runs s.tbl cfg.host w.cid job.jid := by
  obtain ⟨jid, p, hn, hpid, -⟩ := hheld
  obtain ⟨m, q, hm, hqid, hqjid, hlv, hlg⟩ := h.entry w.cid job hl
  obtain rfl : m = n := h.distinct m n q p hm hn hlv (.inr hcur) (hqid.trans hpid.symm)
  refine ⟨⟨q, hm, hqid, hqjid⟩, ?_, h.runs w.cid job hl (by rw [hset]; simp)⟩
  intro hlog
  have hc := hlg hlog
  rw [herase] at hc
  cases hc

/-- `finish_job` changes the job a child stands for, not which job it is. -/
theorem Core.finish (h : Core cfg s) {n takes : Nat} {w : Waited} {job : Row} {pc : Pc}
    (hl : s.children.lookup w.cid = some job) (hcur : s.pc.cur = some n)
    (hhand : s.pc.hand = some n) (hset : s.pc.unsettled = none) (herase : s.pc.erasing = none)
    (hcur' : pc.cur = some n) (hhand' : pc.hand = some n) (hblock : pc.inBlock = s.pc.inBlock)
    (hhere : Here cfg { s with children := s.children.insert w.cid (finishJob w job),
                               takes := takes, pc := pc }) :
    Core cfg { s with children := s.children.insert w.cid (finishJob w job),
                      takes := takes, pc := pc } := by
  have hlookup : ∀ {c job'}, (s.children.insert w.cid (finishJob w job)).lookup c = some job' →
      ∃ job₀, s.children.lookup c = some job₀ ∧ job₀.jid = job'.jid := by
    intro c job' hl'
    by_cases hc : c = w.cid
    · subst hc
      rw [AList.lookup_insert] at hl'
      obtain rfl := Option.some.inj hl'
      exact ⟨job, hl, rfl⟩
    · rw [AList.lookup_insert_ne hc] at hl'
      exact ⟨job', hl', rfl⟩
  have hlookup' : ∀ {c job'}, s.children.lookup c = some job' →
      ∃ job₁, (s.children.insert w.cid (finishJob w job)).lookup c = some job₁ := by
    intro c job' hl'
    by_cases hc : c = w.cid
    · subst hc
      exact ⟨_, AList.lookup_insert _⟩
    · exact ⟨job', by rw [AList.lookup_insert_ne hc, hl']⟩
  have hlive : ∀ (i : Nat) (q : Proc), (q.state ≠ .reaped ∨ pc.cur = some i) ↔ s.Live i q := by
    intro i q
    unfold St.Live
    rw [hcur, hcur']
  refine ⟨?_, ?_, ?_, ?_, h.known, h.pend, h.block.trans hblock.symm, h.closed, hhere⟩
  · intro i j a b hi hj ha hb
    exact h.distinct i j a b hi hj ((hlive i a).mp ha) ((hlive j b).mp hb)
  · intro c job' hl'
    obtain ⟨job₀, hl₀, hjid⟩ := hlookup hl'
    obtain ⟨m, q, hm, hqid, hqjid, hlv, hlg⟩ := h.entry c job₀ hl₀
    refine ⟨m, q, hm, hqid, hqjid.trans hjid, (hlive m q).mpr hlv, ?_⟩
    intro hlog
    have hc := hlg hlog
    rw [herase] at hc
    cases hc
  · intro c job' hl' _
    obtain ⟨job₀, hl₀, hjid⟩ := hlookup hl'
    exact hjid ▸ h.runs c job₀ hl₀ (by rw [hset]; simp)
  · intro m q hm hran
    rcases h.covered m q hm hran with hlog | ⟨job', hl', hlv⟩ | hh
    · exact .inl hlog
    · obtain ⟨job₁, hl₁⟩ := hlookup' hl'
      exact .inr (.inl ⟨job₁, hl₁, (hlive m q).mpr hlv⟩)
    · rw [hhand] at hh
      exact .inr (.inr (hhand'.trans hh))

/-- `@q.jobisdone job`. -/
theorem Core.jobisdone (h : Core cfg s) {only : Bool} {t : Taken} {loopno : Nat}
    {pid : Option String} (hpc : s.pc = .recording only t loopno) :
    Core cfg { s with work := some (JobQueue.jobisdone t.done.job s.tbl),
                      pending := s.pending ++ [⟨t.proc, t.done.child.jid, pid⟩],
                      pc := .recorded only t loopno } := by
  have hhere := h.here
  unfold Here at hhere
  rw [hpc] at hhere
  obtain ⟨⟨p, hn, hpid, hjid⟩, -, hruns⟩ := hhere
  have hlog : ∀ m, (∃ u ∈ (s.pending ++ [⟨t.proc, t.done.child.jid, pid⟩]) ++ s.done, u.proc = m) ↔
      s.Logged m ∨ t.proc = m := by
    intro m
    simp only [St.Logged, List.mem_append, List.mem_singleton]
    constructor
    · rintro ⟨u, (hu | rfl) | hu, hum⟩
      · exact .inl ⟨u, .inl hu, hum⟩
      · exact .inr hum
      · exact .inl ⟨u, .inr hu, hum⟩
    · rintro (⟨u, hu | hu, hum⟩ | hum)
      · exact ⟨u, .inl (.inl hu), hum⟩
      · exact ⟨u, .inr hu, hum⟩
      · exact ⟨_, .inl (.inr rfl), hum⟩
  have hlive : ∀ (i : Nat) (q : Proc),
      (q.state ≠ .reaped ∨ (Pc.recorded only t loopno).cur = some i) ↔ s.Live i q := by
    intro i q
    unfold St.Live
    rw [hpc]
    rfl
  refine ⟨?_, ?_, ?_, ?_, ?_, ?_, rfl, ?_, ⟨⟨p, hn, hpid, hjid⟩, (hlog _).mpr (.inr rfl)⟩⟩
  · intro i j a b hi hj ha hb
    exact h.distinct i j a b hi hj ((hlive i a).mp ha) ((hlive j b).mp hb)
  · intro c job' hl
    obtain ⟨m, q, hm, hqid, hqjid, hlv, hlg⟩ := h.entry c job' hl
    refine ⟨m, q, hm, hqid, hqjid, (hlive m q).mpr hlv, ?_⟩
    intro hlog'
    rcases (hlog m).mp hlog' with hl' | rfl
    · have hc := hlg hl'
      rw [hpc] at hc
      cases hc
    · obtain rfl := Option.some.inj (hn.symm.trans hm)
      show some t.done.waited.cid = some c
      rw [← hpid, hqid]
  · intro c job' hl hset
    have hc : c ≠ t.done.waited.cid := fun heq => hset (congrArg some heq.symm)
    exact Runs.jobisdone hruns (h.runs c job' hl (by rw [hpc]; simp [Pc.unsettled])) hc
  · intro m q hm hran
    rcases h.covered m q hm hran with hl | ⟨job', hl, hlv⟩ | hh
    · exact .inl ((hlog m).mpr (.inl hl))
    · exact .inr (.inl ⟨job', hl, (hlive m q).mpr hlv⟩)
    · rw [hpc] at hh
      exact .inl ((hlog m).mpr (.inr (Option.some.inj hh)))
  · intro m hm
    rcases (hlog m).mp hm with hm | rfl
    · exact h.known m hm
    · exact (List.getElem?_eq_some_iff.mp hn).1
  · intro u hu
    rcases List.mem_append.mp hu with hu | hu
    · obtain ⟨r, hr, hrj, hstate⟩ := h.pend u hu
      exact ⟨r, mem_jobisdone hruns hr (.inl (by rw [hstate]; decide)), hrj, hstate⟩
    · rw [List.mem_singleton.mp hu]
      obtain ⟨r, hr, hrj, hstate, -⟩ := recorded_jobisdone hruns
      exact ⟨r, hr, hrj, hstate⟩
  · intro hw
    cases hw

theorem lookup_of_erase {children : Children} {k c : Nat} {job : Row}
    (h : (children.erase k).lookup c = some job) : children.lookup c = some job ∧ c ≠ k := by
  by_cases hk : c = k
  · rw [hk, AList.lookup_erase] at h
    cases h
  · rw [AList.lookup_erase_ne hk] at h
    exact ⟨h, hk⟩

/-- `@children.delete cid`. -/
theorem Core.delete (h : Core cfg s) {only : Bool} {t : Taken} {loopno : Nat}
    (hpc : s.pc = .recorded only t loopno) :
    Core cfg { s with children := s.children.erase t.done.waited.cid,
                      pc := .deleted only t loopno } := by
  have hhere := h.here
  unfold Here at hhere
  rw [hpc] at hhere
  obtain ⟨⟨p, hn, hpid, hjid⟩, hlogged⟩ := hhere
  have hcur : s.pc.cur = some t.proc := by rw [hpc]; rfl
  -- With the pid gone, a process whose pid is its own is one that was not reported.
  have hunreaped : ∀ {m : Nat} {q : Proc}, s.procs[m]? = some q → q.pid ≠ t.done.waited.cid →
      s.Live m q → q.state ≠ .reaped := by
    intro m q hm hne hlv
    refine hlv.resolve_right ?_
    rw [hcur]
    intro heq
    obtain rfl := Option.some.inj heq
    obtain rfl := Option.some.inj (hn.symm.trans hm)
    exact hne hpid
  refine ⟨?_, ?_, ?_, ?_, h.known, h.pend, ?_, h.closed, trivial⟩
  · intro i j a b hi hj ha hb
    refine h.distinct i j a b hi hj ?_ ?_
    · exact .inl (ha.resolve_right (by simp [Pc.cur]))
    · exact .inl (hb.resolve_right (by simp [Pc.cur]))
  · intro c job' hl
    obtain ⟨hl, hc⟩ := lookup_of_erase hl
    obtain ⟨m, q, hm, hqid, hqjid, hlv, hlg⟩ := h.entry c job' hl
    refine ⟨m, q, hm, hqid, hqjid, .inl (hunreaped hm (hqid ▸ hc) hlv), ?_⟩
    intro hlog
    have hc' := hlg hlog
    rw [hpc] at hc'
    exact absurd (Option.some.inj hc').symm hc
  · intro c job' hl _
    obtain ⟨hl, hc⟩ := lookup_of_erase hl
    refine h.runs c job' hl ?_
    rw [hpc]
    intro heq
    exact hc (Option.some.inj heq).symm
  · intro m q hm hran
    rcases h.covered m q hm hran with hl | ⟨job', hl, hlv⟩ | hh
    · exact .inl hl
    · by_cases hq : q.pid = t.done.waited.cid
      · obtain rfl := h.distinct m t.proc q p hm hn hlv (.inr hcur) (hq.trans hpid.symm)
        exact .inl hlogged
      · refine .inr (.inl ⟨job', ?_, .inl (hunreaped hm hq hlv)⟩)
        show (s.children.erase _).lookup q.pid = some job'
        rw [AList.lookup_erase_ne hq, hl]
    · rw [hpc] at hh
      cases hh
  · rw [h.block, hpc]
    rfl

/-- The same from where a block that failed is run again: the child is known by the variable. -/
theorem Core.redelete (h : Core cfg s) {only : Bool} {t : Taken} {loopno : Nat}
    (hpc : s.pc = .recording only t loopno) :
    Core cfg { s with children := s.children.erase t.done.waited.cid } := by
  have hhere := h.here
  unfold Here at hhere
  rw [hpc] at hhere
  obtain ⟨⟨p, hn, hpid, hjid⟩, hlog, hruns⟩ := hhere
  have hcur : s.pc.cur = some t.proc := by rw [hpc]; rfl
  refine ⟨h.distinct, ?_, ?_, ?_, h.known, h.pend, h.block, h.closed, ?_⟩
  · intro c job' hl
    exact h.entry c job' (lookup_of_erase hl).1
  · intro c job' hl
    exact h.runs c job' (lookup_of_erase hl).1
  · intro m q hm hran
    rcases h.covered m q hm hran with hl | ⟨job', hl, hlv⟩ | hh
    · exact .inl hl
    · by_cases hq : q.pid = t.done.waited.cid
      · obtain rfl := h.distinct m t.proc q p hm hn hlv (.inr hcur) (hq.trans hpid.symm)
        exact .inr (.inr (by rw [hpc]; rfl))
      · refine .inr (.inl ⟨job', ?_, hlv⟩)
        show (s.children.erase _).lookup q.pid = some job'
        rw [AList.lookup_erase_ne hq, hl]
    · exact .inr (.inr hh)
  · unfold Here
    rw [hpc]
    exact ⟨⟨p, hn, hpid, hjid⟩, hlog, hruns⟩

/-- The feeder leaves with no child, nothing in hand and nothing to commit. -/
theorem Core.leave (h : Core cfg s) {signals : List Signal} {restart : Bool}
    (hempty : s.children.entries = []) (hpending : s.pending = []) (hhand : s.pc.hand = none) :
    Core cfg { s with signals := signals, work := none, pending := [], pc := .gone restart } := by
  have hlookup : ∀ c, s.children.lookup c = none := by
    intro c
    rw [AList.lookup_eq_none, AList.mem_keys]
    unfold AList.keys
    rw [hempty]
    simp
  have hlog : ∀ n, (∃ u ∈ [] ++ s.done, u.proc = n) ↔ s.Logged n := by
    intro n
    unfold St.Logged
    rw [hpending]
  refine ⟨?_, ?_, ?_, ?_, ?_, ?_, rfl, fun _ => rfl, hempty⟩
  · intro i j a b hi hj ha hb
    refine h.distinct i j a b hi hj ?_ ?_
    · exact .inl (ha.resolve_right (by simp [Pc.cur]))
    · exact .inl (hb.resolve_right (by simp [Pc.cur]))
  · intro c job' hl
    rw [show s.children.lookup c = none from hlookup c] at hl
    cases hl
  · intro c job' hl
    rw [show s.children.lookup c = none from hlookup c] at hl
    cases hl
  · intro n p hn hran
    rcases h.covered n p hn hran with hl | ⟨job', hl, -⟩ | hh
    · exact .inl ((hlog n).mpr hl)
    · rw [hlookup] at hl
      cases hl
    · rw [hhand] at hh
      cases hh
  · intro n hn
    exact h.known n ((hlog n).mp hn)
  · intro u hu
    exact absurd hu List.not_mem_nil

/-! ## The invariant along a run -/

/-- The open transaction can be rolled back and run again: it has launched nothing, and taken no
    child after the first. -/
def Retry (cfg : Config) (s : St) : Prop :=
  s.mark = s.procs.length → s.takes = 0 → ∀ pc, s.pc.block = some pc → Core cfg (s.again pc)

structure Inv (cfg : Config) (s : St) : Prop where
  core : s.pc ≠ .dead → Core cfg s
  retry : s.pc ≠ .dead → Retry cfg s
  mark : s.mark ≤ s.procs.length

/-- What a step must not do: leave while something is in hand or not committed, or run again a
    transaction that has launched a job or taken another child. -/
def Keeps (s : St) : Label → Prop
  | .signal _ => s.children.entries = [] → s.pending = [] ∧ s.pc.hand = none
  | .fail true => s.mark = s.procs.length ∧ s.takes = 0
  | _ => True

theorem Inv.of_core {s' : St} (h : Core cfg s') (hb : s'.pc.block = none)
    (hm : s'.mark ≤ s'.procs.length) : Inv cfg s' := by
  refine ⟨fun _ => h, fun _ _ _ pc hpc => ?_, hm⟩
  rw [hb] at hpc
  cases hpc

theorem Inv.of_dead {s' : St} (h : s'.pc = .dead) (hm : s'.mark ≤ s'.procs.length) : Inv cfg s' :=
  ⟨fun hne => absurd h hne, fun hne => absurd h hne, hm⟩

/-- A transaction has just begun. -/
theorem Inv.begin {pc : Pc} (h : Core cfg (s.begin pc)) (hp : s.pending = [])
    (hb : pc.block = some pc) : Inv cfg (s.begin pc) := by
  refine ⟨fun _ => h, ?_, Nat.le_refl _⟩
  intro _ _ _ pc' hpc'
  obtain rfl : pc = pc' := Option.some.inj (hb.symm.trans hpc')
  have heq : (s.begin pc).again pc = s.begin pc := by
    unfold St.again St.begin
    rw [← hp]
  rw [heq]
  exact h

/-- A step inside a block that leaves what a retry starts from. -/
theorem Inv.inside {s' : St} (hi : Inv cfg s) (hne : s.pc ≠ .dead) (h : Core cfg s')
    (hagain : ∀ pc, s'.again pc = s.again pc) (hb : s'.pc.block = s.pc.block)
    (hmark : s'.mark = s.mark) (hlen : s'.procs = s.procs) (htakes : s'.takes = s.takes) :
    Inv cfg s' := by
  refine ⟨fun _ => h, ?_, by rw [hmark, hlen]; exact hi.mark⟩
  intro _ hm ht pc hpc
  rw [hagain]
  exact hi.retry hne (by rw [← hmark, ← hlen]; exact hm) (htakes ▸ ht) pc (hb ▸ hpc)

/-- A step inside a block that has launched a job. -/
theorem Inv.launched {s' : St} (h : Core cfg s') (hm : s'.mark < s'.procs.length) : Inv cfg s' :=
  ⟨fun _ => h, fun _ hm' => absurd hm' (Nat.ne_of_lt hm), Nat.le_of_lt hm⟩

theorem Core.work_none (h : Core cfg s) (hb : s.pc.inBlock = false) : s.work = none := by
  have hblock := h.block
  rw [hb] at hblock
  simpa using hblock

/-- A step outside the blocks. -/
theorem inv_move (hi : Inv cfg s) {pc : Pc} (hmarks : pc.marks = s.pc.marks)
    (hb : pc.inBlock = s.pc.inBlock) (hblock : pc.block = none) (hne : s.pc ≠ .dead)
    (hhere : Here cfg { s with pc := pc }) : Inv cfg { s with pc := pc } :=
  Inv.of_core ((hi.core hne).move hmarks hb hhere) hblock hi.mark

/-- `@q.transaction do` of `start_jobs`. -/
theorem inv_begin_starting (hi : Inv cfg s) {k : Caller} (hmarks : s.pc.marks = Pc.top.marks)
    (hb : s.pc.inBlock = false) (hne : s.pc ≠ .dead) (hk : (Pc.starting k).block = some (.starting k)) :
    Inv cfg (s.begin (.starting k)) := by
  have h := hi.core hne
  have hwork := h.work_none hb
  exact Inv.begin (h.begin hwork hmarks.symm rfl trivial) (h.closed hwork) hk

/-- The invariant does not read the branch of `handle_signal`, nor the signals that have come. -/
theorem Core.signaled (h : Core cfg s) (signals : List Signal) (restart : Bool) :
    Core cfg { s with signals := signals, restart := restart } :=
  h.same rfl rfl rfl (fun _ => Iff.rfl) (fun _ _ _ h => h) h.pend h.block h.closed h.here

theorem Inv.signaled (hi : Inv cfg s) (signals : List Signal) (restart : Bool) :
    Inv cfg { s with signals := signals, restart := restart } :=
  ⟨fun hne => (hi.core hne).signaled signals restart,
    fun hne hm ht pc hb => (hi.retry hne hm ht pc hb).signaled signals restart, hi.mark⟩

/-- The end of `start_jobs`. -/
theorem inv_started (hi : Inv cfg s) {k : Caller} (hpc : s.pc = .starting k) :
    Inv cfg (s.started k) := by
  have hmarks : s.pc.marks = Pc.top.marks := by rw [hpc]; rfl
  have h := hi.core (by rw [hpc]; simp)
  cases k with
  | feed => exact Inv.of_core (h.commit hmarks.symm rfl trivial) rfl hi.mark
  | busywait => exact Inv.of_core (h.commit hmarks.symm rfl trivial) rfl hi.mark
  | loop t loopno =>
    have h' : Core cfg { s with pc := .looping false t loopno } :=
      h.move hmarks.symm (by rw [hpc]; rfl) trivial
    exact hi.inside (by rw [hpc]; simp) h' (fun _ => rfl) (by rw [hpc]; rfl) rfl rfl rfl

/-- `finish_job` on a reported child, before the transaction and in its loop. -/
theorem inv_finish (hi : Inv cfg s) {w : Waited} {found : Row → St → St}
    (hfound : ∀ job, s.children.lookup w.cid = some job →
      Inv cfg (found job { s with children := s.children.insert w.cid (finishJob w job) })) :
    Inv cfg (s.finish w found) := by
  unfold St.finish
  cases hl : s.children.lookup w.cid with
  | none => exact Inv.of_dead rfl hi.mark
  | some job => exact hfound job hl

theorem inv_took (hi : Inv cfg s) {only : Bool} {n : Nat} {w : Waited}
    (hpc : s.pc = .took only n w) :
    Inv cfg (s.finish w fun job s => { s with pc := .finished only ⟨n, w, job⟩ }) := by
  have h := hi.core (by rw [hpc]; simp)
  have hhere := h.here
  unfold Here at hhere
  rw [hpc] at hhere
  apply inv_finish hi
  intro job hl
  obtain ⟨hholds, hlog, -⟩ := h.taken (by rw [hpc]; rfl) (by rw [hpc]; rfl) (by rw [hpc]; rfl) hhere hl
  have h' := @Core.finish _ _ h n s.takes w job (.finished only ⟨n, w, job⟩) hl (by rw [hpc]; rfl)
    (by rw [hpc]; rfl) (by rw [hpc]; rfl) (by rw [hpc]; rfl) rfl rfl (by rw [hpc]; rfl)
    ⟨hholds, hlog, AList.lookup_insert _⟩
  exact Inv.of_core h' rfl hi.mark

/-- In the loop a retry is no longer possible: the variable has another child now. -/
theorem inv_tookMore (hi : Inv cfg s) {only : Bool} {n loopno : Nat} {w : Waited}
    (hpc : s.pc = .tookMore only n w loopno) :
    Inv cfg (s.finish w fun job s =>
      { s with takes := s.takes + 1, pc := .recording only ⟨n, w, job⟩ (loopno + 1) }) := by
  have h := hi.core (by rw [hpc]; simp)
  have hhere := h.here
  unfold Here at hhere
  rw [hpc] at hhere
  apply inv_finish hi
  intro job hl
  have ht := h.taken (by rw [hpc]; rfl) (by rw [hpc]; rfl) (by rw [hpc]; rfl) hhere hl
  have h' := @Core.finish _ _ h n (s.takes + 1) w job (.recording only ⟨n, w, job⟩ (loopno + 1)) hl
    (by rw [hpc]; rfl) (by rw [hpc]; rfl) (by rw [hpc]; rfl) (by rw [hpc]; rfl) rfl rfl
    (by rw [hpc]; rfl) ht
  exact ⟨fun _ => h', fun _ _ ht' => absurd ht' (Nat.succ_ne_zero _), hi.mark⟩

/-- `@q.transaction do` of `reap_jobs`. -/
theorem inv_finished (hi : Inv cfg s) {only : Bool} {t : Taken} (hpc : s.pc = .finished only t) :
    Inv cfg (s.begin (.recording only t 0)) := by
  have h := hi.core (by rw [hpc]; simp)
  have hhere := h.here
  unfold Here at hhere
  rw [hpc] at hhere
  obtain ⟨hholds, hlog, hl⟩ := hhere
  have hwork := h.work_none (by rw [hpc]; rfl)
  have hruns := h.runs t.done.waited.cid t.done.job hl (by rw [hpc]; simp [Pc.unsettled])
  have htbl : (s.begin (.recording only t 0)).tbl = s.tbl := by simp [St.begin, St.tbl, hwork]
  have hhere : Here cfg (s.begin (.recording only t 0)) := by
    refine ⟨hholds, hlog, ?_⟩
    rw [htbl]
    exact hruns
  exact Inv.begin (h.begin hwork (by rw [hpc]; rfl) rfl hhere) (h.closed hwork) rfl

/-- `@children.delete cid`, also before a retry. -/
theorem inv_recorded (hi : Inv cfg s) {only : Bool} {t : Taken} {loopno : Nat}
    (hpc : s.pc = .recorded only t loopno) :
    Inv cfg { s with children := s.children.erase t.done.waited.cid, pc := .deleted only t loopno } := by
  have h := hi.core (by rw [hpc]; simp)
  refine ⟨fun _ => h.delete hpc, ?_, hi.mark⟩
  intro _ hm ht pc hb
  obtain rfl : Pc.recording only t 0 = pc := Option.some.inj hb
  have h₀ := hi.retry (by rw [hpc]; simp) hm ht (.recording only t 0) (by rw [hpc]; rfl)
  exact Core.redelete h₀ rfl

/-- `start_jobs unless @sigterm or ...` in the block. -/
theorem inv_deleted (hi : Inv cfg s) {only : Bool} {t : Taken} {loopno : Nat}
    (hpc : s.pc = .deleted only t loopno) :
    Inv cfg { s with
      pc := if only || !s.signals.isEmpty then .looping only t loopno else .starting (.loop t loopno) } := by
  have h := hi.core (by rw [hpc]; simp)
  have hinside : ∀ {pc : Pc}, pc.marks = s.pc.marks → pc.inBlock = s.pc.inBlock →
      pc.block = s.pc.block → Here cfg { s with pc := pc } → Inv cfg { s with pc := pc } := by
    intro pc hmarks hb hblock hhere
    exact hi.inside (by rw [hpc]; simp) (h.move hmarks hb hhere) (fun _ => rfl) hblock rfl rfl rfl
  split
  · exact hinside (by rw [hpc]; rfl) (by rw [hpc]; rfl) (by rw [hpc]; rfl) trivial
  · rename_i honly
    obtain rfl : only = false := by
      cases only with
      | false => rfl
      | true => exact absurd rfl honly
    exact hinside (by rw [hpc]; rfl) (by rw [hpc]; rfl) (by rw [hpc]; rfl) trivial

/-- The end of the loop of `reap_jobs`. -/
theorem inv_looped (hi : Inv cfg s) {only : Bool} {t : Taken} {loopno : Nat}
    (hpc : s.pc = .looping only t loopno) :
    Inv cfg (s.commit (if only then .handling else .top)) := by
  have h := hi.core (by rw [hpc]; simp)
  cases only
  · exact Inv.of_core (h.commit (by rw [hpc]; rfl) rfl trivial) rfl hi.mark
  · exact Inv.of_core (h.commit (by rw [hpc]; rfl) rfl trivial) rfl hi.mark

/-- **What the feeder does by itself keeps the invariant.** -/
theorem inv_tick {t : St} (hi : Inv cfg s) (ht : tick cfg s = some t) : Inv cfg t := by
  have hcore : ∀ {pc}, s.pc = pc → pc ≠ .dead → Core cfg s := fun hpc hne => hi.core (hpc ▸ hne)
  unfold tick at ht
  cases hpc : s.pc with
  | top =>
    simp only [hpc, Option.some.injEq] at ht
    subst ht
    have hne : s.pc ≠ .dead := by rw [hpc]; simp
    split
    · exact inv_move hi (by rw [hpc]; rfl) (by rw [hpc]; rfl) rfl hne trivial
    · exact inv_move (hi.signaled s.signals (onlyHup s.signals)) (congrArg Pc.marks hpc).symm
        (congrArg Pc.inBlock hpc).symm rfl hne trivial
  | handling =>
    simp only [hpc, Option.some.injEq] at ht
    subst ht
    have hne : s.pc ≠ .dead := by rw [hpc]; simp
    split
    · rename_i hnone
      exact inv_move hi (by rw [hpc]; rfl) (by rw [hpc]; rfl) rfl hne (nothingRunning_iff.mp hnone)
    · exact inv_move hi (by rw [hpc]; rfl) (by rw [hpc]; rfl) rfl hne trivial
  | feed =>
    simp only [hpc, Option.some.injEq] at ht
    subst ht
    have hne : s.pc ≠ .dead := by rw [hpc]; simp
    split
    · exact inv_move hi (by rw [hpc]; rfl) (by rw [hpc]; rfl) rfl hne trivial
    · exact inv_begin_starting hi (by rw [hpc]; rfl) (by rw [hpc]; rfl) hne rfl
  | rest =>
    simp only [hpc, Option.some.injEq] at ht
    subst ht
    have hne : s.pc ≠ .dead := by rw [hpc]; simp
    split
    · exact inv_move hi (by rw [hpc]; rfl) (by rw [hpc]; rfl) rfl hne trivial
    · exact inv_move hi (by rw [hpc]; rfl) (by rw [hpc]; rfl) rfl hne trivial
  | starting k =>
    simp only [hpc] at ht
    split at ht
    · obtain rfl := Option.some.inj ht
      exact inv_started hi hpc
    · cases ht
  | forked k job e n =>
    have h := hcore hpc (by simp)
    simp only [hpc] at ht
    split at ht
    · cases ht
    · obtain rfl := Option.some.inj ht
      have h' := h.run hpc
      exact Inv.launched h' h'.here.2.2.1
  | ran k job e n =>
    have h := hcore hpc (by simp)
    simp only [hpc, Option.some.injEq] at ht
    subst ht
    have h' := h.insert hpc
    exact Inv.launched h' h'.here.2.1
  | entered k job e n =>
    have h := hcore hpc (by simp)
    simp only [hpc, Option.some.injEq] at ht
    subst ht
    have hmark : s.mark < s.procs.length := by
      have hhere := h.here
      unfold Here at hhere
      rw [hpc] at hhere
      exact hhere.2.1
    exact Inv.launched (h.jobisrunning hpc) hmark
  | took only n w =>
    simp only [hpc, Option.some.injEq] at ht
    subst ht
    exact inv_took hi hpc
  | finished only t =>
    simp only [hpc, Option.some.injEq] at ht
    subst ht
    exact inv_finished hi hpc
  | recording only t loopno =>
    have h := hcore hpc (by simp)
    simp only [hpc, Option.some.injEq] at ht
    subst ht
    exact hi.inside (by rw [hpc]; simp) (h.jobisdone hpc) (fun _ => rfl) (by rw [hpc]; rfl) rfl rfl rfl
  | recorded only t loopno =>
    simp only [hpc, Option.some.injEq] at ht
    subst ht
    exact inv_recorded hi hpc
  | deleted only t loopno =>
    simp only [hpc, Option.some.injEq] at ht
    subst ht
    exact inv_deleted hi hpc
  | looping only t loopno =>
    simp only [hpc] at ht
    split at ht
    · obtain rfl := Option.some.inj ht
      exact inv_looped hi hpc
    · cases ht
  | tookMore only n w loopno =>
    simp only [hpc, Option.some.injEq] at ht
    subst ht
    exact inv_tookMore hi hpc
  | waiting only => simp [hpc] at ht
  | gone restart => simp [hpc] at ht
  | dead => simp [hpc] at ht

/-- A failed block is run again from `start_jobs` or from `reap_jobs`. -/
theorem Pc.block_cases {pc pc' : Pc} (h : pc.block = some pc') :
    (∃ k : Caller, pc' = k.block ∧ pc.child = k.child) ∨
      ∃ only c, pc' = .recording only c 0 ∧ pc.child = some c.proc := by
  cases pc with
  | starting k => exact .inl ⟨k, (Option.some.inj h).symm, rfl⟩
  | forked k => exact .inl ⟨k, (Option.some.inj h).symm, rfl⟩
  | ran k => exact .inl ⟨k, (Option.some.inj h).symm, rfl⟩
  | entered k => exact .inl ⟨k, (Option.some.inj h).symm, rfl⟩
  | recording only c => exact .inr ⟨only, c, (Option.some.inj h).symm, rfl⟩
  | recorded only c => exact .inr ⟨only, c, (Option.some.inj h).symm, rfl⟩
  | deleted only c => exact .inr ⟨only, c, (Option.some.inj h).symm, rfl⟩
  | looping only c => exact .inr ⟨only, c, (Option.some.inj h).symm, rfl⟩
  | _ => cases h

theorem Pc.block_block {pc pc' : Pc} (h : pc.block = some pc') : pc'.block = some pc' := by
  rcases Pc.block_cases h with ⟨k, rfl, -⟩ | ⟨only, c, rfl, -⟩
  · cases k <;> rfl
  · rfl

theorem Pc.block_none {pc : Pc} (h : pc.inBlock = false) : pc.block = none := by
  cases pc <;> first | rfl | cases h

theorem Pc.unsettled_none {pc : Pc} (h : pc.inBlock = false) : pc.unsettled = none := by
  cases pc <;> first | rfl | cases h

theorem Proc.report_some {p p' : Proc} {status : Option Int} (h : p.report = some (status, p')) :
    p.state ≠ .reaped ∧ p'.pid = p.pid ∧ p'.jid = p.jid ∧ p'.ran = p.ran := by
  unfold Proc.report at h
  split at h
  · rename_i hst
    obtain ⟨-, rfl⟩ := Prod.mk.inj (Option.some.inj h)
    exact ⟨by rw [hst]; simp, rfl, rfl, rfl⟩
  · rename_i hst
    obtain ⟨-, rfl⟩ := Prod.mk.inj (Option.some.inj h)
    exact ⟨by rw [hst]; simp, rfl, rfl, rfl⟩
  · cases h

theorem inv_fork {t : St} {pid : Nat} {now : String} (hi : Inv cfg s)
    (ht : step cfg s (.fork pid now) = some t) : Inv cfg t := by
  obtain ⟨k, job, hpc, hjob, hnew, rfl⟩ := step_fork ht
  have h := @Core.fork _ _ (hi.core (by rw [hpc]; simp)) k job { pid := pid, now := now } hpc hjob
    hi.mark hnew
  exact Inv.launched h h.here.2.2.1

/-- `waitpid2` returns a process. -/
theorem inv_report {t : St} {n : Nat} {f e : String} (hi : Inv cfg s)
    (ht : step cfg s (.report n f e) = some t) : Inv cfg t := by
  obtain ⟨p, p', status, hn, hp, hpc⟩ := step_report ht
  obtain ⟨hst, hpid, hjid, hran⟩ := Proc.report_some hp
  have hlt : n < s.procs.length := (List.getElem?_eq_some_iff.mp hn).1
  have hm : s.mark ≤ (s.procs.set n p').length := by rw [List.length_set]; exact hi.mark
  have hholds : ∃ q, (s.procs.set n p')[n]? = some q ∧ q.pid = p.pid ∧ q.jid = p.jid :=
    ⟨p', List.getElem?_set_self hlt, hpid, hjid⟩
  rcases hpc with ⟨only, hpc, rfl⟩ | ⟨only, c, loopno, hpc, rfl⟩
  · have h := hi.core (by rw [hpc]; simp)
    exact Inv.of_core (h.report hn hpid hjid hran hst (by rw [hpc]; rfl) (by rw [hpc]; rfl)
      (by rw [hpc]; rfl) (by rw [hpc]; rfl) rfl (by rw [hpc]; rfl) ⟨p.jid, hholds⟩) rfl hm
  · have h := hi.core (by rw [hpc]; simp)
    exact Inv.of_core (h.report hn hpid hjid hran hst (by rw [hpc]; rfl) (by rw [hpc]; rfl)
      (by rw [hpc]; rfl) (by rw [hpc]; rfl) rfl (by rw [hpc]; rfl) ⟨p.jid, hholds⟩) rfl hm

theorem inv_signal {t : St} {sig : Signal} (hi : Inv cfg s) (hk : Keeps s (.signal sig))
    (ht : step cfg s (.signal sig) = some t) : Inv cfg t := by
  obtain ⟨-, hdead, ⟨hempty, rfl⟩ | rfl⟩ := step_signal ht
  · obtain ⟨hpending, hhand⟩ := hk hempty
    exact Inv.of_core ((hi.core hdead).leave hempty hpending hhand) rfl hi.mark
  · exact hi.signaled (sig :: s.signals) s.restart

theorem inv_fail {t : St} {again : Bool} (hi : Inv cfg s) (hk : Keeps s (.fail again))
    (ht : step cfg s (.fail again) = some t) : Inv cfg t := by
  obtain ⟨pc, hb, rfl⟩ := step_fail ht
  cases again with
  | false => exact Inv.of_dead rfl hi.mark
  | true =>
    obtain ⟨hmark, htakes⟩ := hk
    have hne : s.pc ≠ .dead := by
      intro hdead
      rw [hdead] at hb
      cases hb
    exact Inv.begin (hi.retry hne hmark htakes pc hb) rfl (Pc.block_block hb)

theorem inv_proc {t : St} {n : Nat} {st : ProcState} (hi : Inv cfg s)
    (ht : step cfg s (.proc n st) = some t) : Inv cfg t := by
  obtain ⟨p, hn, hmove, rfl⟩ := step_proc ht
  have hlen : (s.procs.set n { p with state := st }).length = s.procs.length := List.length_set ..
  refine ⟨fun hne => (hi.core hne).proc hn hmove, ?_, by rw [hlen]; exact hi.mark⟩
  intro hne hm htakes pc hb
  have h := (hi.retry hne (hm.trans hlen) htakes pc hb).proc hn hmove
  unfold St.again St.begin at h ⊢
  dsimp only at h ⊢
  rw [hlen]
  exact h

theorem inv_others {t : St} {jobs : Jobs} (hi : Inv cfg s)
    (ht : step cfg s (.others jobs) = some t) : Inv cfg t := by
  obtain ⟨hwork, hruns, rfl⟩ := step_others ht
  by_cases hdead : s.pc = .dead
  · exact Inv.of_dead hdead hi.mark
  · have h := hi.core hdead
    have hb : s.pc.inBlock = false := by
      rw [← h.block, hwork]
      rfl
    exact Inv.of_core (h.others hwork hruns) (Pc.block_none hb) hi.mark

/-- **Every step that meets the condition keeps the invariant.** -/
theorem inv_step {t : St} {l : Label} (hi : Inv cfg s) (hk : Keeps s l)
    (ht : step cfg s l = some t) : Inv cfg t := by
  cases l with
  | tick => exact inv_tick hi ht
  | fork pid now => exact inv_fork hi ht
  | report n finished elapsed => exact inv_report hi ht
  | nobody =>
    obtain ⟨only, c, loopno, hpc, rfl⟩ | ⟨rfl, -⟩ := step_nobody ht
    · exact inv_looped hi hpc
    · exact Inv.of_dead rfl hi.mark
  | start =>
    obtain ⟨hpc, rfl⟩ := step_start ht
    exact inv_begin_starting hi (by rw [hpc]; rfl) (by rw [hpc]; rfl) (by rw [hpc]; simp) rfl
  | signal sig => exact inv_signal hi hk ht
  | fail again => exact inv_fail hi hk ht
  | proc n st => exact inv_proc hi ht
  | others jobs => exact inv_others hi ht

/-- The feeder starts on a table with nothing in flight, after `fill_morgue`. -/
def Initial (s : St) : Prop :=
  s.work = none ∧ s.children = ∅ ∧ s.procs = [] ∧ s.pc = .top ∧ s.missing = false ∧ s.pending = [] ∧
    s.done = [] ∧ s.mark = 0

theorem inv_initial (h : Initial s) : Inv cfg s := by
  obtain ⟨hwork, hchildren, hprocs, hpc, -, hpending, hdone, hmark⟩ := h
  have hlog : ∀ n, ¬ s.Logged n := by
    rintro n ⟨u, hu, -⟩
    rw [hpending, hdone] at hu
    exact absurd hu List.not_mem_nil
  have hnoproc : ∀ (i : Nat) (p : Proc), s.procs[i]? ≠ some p := by
    intro i p
    rw [hprocs]
    simp
  have hnochild : ∀ (c : Nat) (job : Row), s.children.lookup c ≠ some job := by
    intro c job
    rw [hchildren]
    simp
  refine Inv.of_core ⟨?_, ?_, ?_, ?_, ?_, ?_, ?_, ?_, ?_⟩ (by rw [hpc]; rfl) (by omega)
  · intro i j p q hi
    exact absurd hi (hnoproc i p)
  · intro c job hl
    exact absurd hl (hnochild c job)
  · intro c job hl
    exact absurd hl (hnochild c job)
  · intro n p hn
    exact absurd hn (hnoproc n p)
  · intro n hn
    exact absurd hn (hlog n)
  · intro u hu
    rw [hpending] at hu
    exact absurd hu List.not_mem_nil
  · rw [hwork, hpc]
    rfl
  · intro _
    exact hpending
  · unfold Here
    rw [hpc]
    trivial

/-- **The invariant holds in every state of a run whose steps meet the condition.** -/
theorem inv_reach {good : St → Label → Prop} (hgood : ∀ s l, good s l → Keeps s l)
    (h : Reach Initial (step cfg) good s) : Inv cfg s :=
  h.invariant (fun _ => inv_initial) fun s l _ hi hg ht => inv_step hi (hgood s l hg) ht

/-! ## What a step does to the record and to the processes -/

/-- The processes of a step: nothing, a fork, `jr.run`, or a change of one that was not reaped. -/
inductive ProcsStep (s t : St) : Prop
  | same (h : t.procs = s.procs)
  | fork (p : Proc) (k : Caller) (job : Row) (e : Fork) (hs : s.pc = .starting k)
      (hpc : t.pc = .forked k job e s.procs.length) (h : t.procs = s.procs ++ [p])
  | run (k : Caller) (job : Row) (e : Fork) (n : Nat) (hpc : s.pc = .forked k job e n)
      (h : t.procs = s.procs.modify n fun p => { p with ran := true })
  | change (n : Nat) (p : Proc) (st : ProcState) (hn : s.procs[n]? = some p) (hst : p.state ≠ .reaped)
      (h : t.procs = s.procs.set n { p with state := st })

/-- The record of a step: it grows only by the `jobisdone` of the child in hand. -/
inductive LogStep (s t : St) : Prop
  | less (h : (t.pending ++ t.done).Subperm (s.pending ++ s.done))
  | jobisdone (only : Bool) (c : Taken) (loopno : Nat) (hpc : s.pc = .recording only c loopno)
      (hprocs : t.procs = s.procs)
      (h : (t.pending ++ t.done).Perm (⟨c.proc, c.done.child.jid,
        (s.tbl.rows.find? (·.jid == c.done.child.jid)).bind Row.pid⟩ :: (s.pending ++ s.done)))

/-- What a step does. -/
structure Effect (s : St) (l : Label) (t : St) : Prop where
  procs : ProcsStep s t
  log : LogStep s t
  child : ∀ n, t.pc.child = some n → s.pc.child = some n ∨ ∃ f e, l = .report n f e
  committed : ∀ u ∈ t.done, u ∈ s.done ∨ (FinishedIn t.db u.jid ∧ t.work = none)
  awaited : t.pc.awaited = none ∨ (t.pc = s.pc ∧ t.children = s.children) ∨
    ∃ n f e, l = .report n f e
  missing : t.missing = s.missing ∨ ∃ c, s.pc.awaited = some c ∧ s.children.lookup c = none

/-- A step that changes neither. -/
theorem Effect.quiet {t : St} {l : Label} (hprocs : t.procs = s.procs) (hpending : t.pending = s.pending)
    (hdone : t.done = s.done) (hmissing : t.missing = s.missing)
    (hawait : t.pc.awaited = none ∨ (t.pc = s.pc ∧ t.children = s.children))
    (hchild : t.pc.child = s.pc.child ∨ t.pc.child = none) : Effect s l t := by
  refine ⟨.same hprocs, .less ?_, ?_, fun u hu => .inl (hdone ▸ hu), hawait.imp_right .inl,
    .inl hmissing⟩
  · rw [hpending, hdone]
  · intro n hn
    rcases hchild with h | h
    · exact .inl (h ▸ hn)
    · rw [h] at hn
      cases hn

theorem Effect.commit {l : Label} {pc : Pc} (hchild : pc.child = none) (hawait : pc.awaited = none) :
    Effect s l (s.commit pc) := by
  refine ⟨.same rfl, .less ?_, ?_, ?_, .inl hawait, .inl rfl⟩
  · have hsub : (s.done ++ s.pending.filter fun u => decide (FinishedIn s.tbl u.jid)).Subperm
        (s.done ++ s.pending) := (List.filter_sublist.append_left s.done).subperm
    exact hsub.trans List.perm_append_comm.subperm
  · intro n hn
    have hn : pc.child = some n := hn
    rw [hchild] at hn
    cases hn
  · intro u hu
    rcases List.mem_append.mp hu with hu | hu
    · exact .inl hu
    · have hfin := (List.mem_filter.mp hu).2
      exact .inr ⟨of_decide_eq_true hfin, rfl⟩

theorem Effect.rollback {l : Label} {s' : St} (hprocs : s'.procs = s.procs) (hpending : s'.pending = [])
    (hdone : s'.done = s.done) (hawait : s'.pc.awaited = none)
    (hmissing : s'.missing = s.missing ∨ ∃ c, s.pc.awaited = some c ∧ s.children.lookup c = none)
    (hchild : s'.pc.child = s.pc.child ∨ s'.pc.child = none) : Effect s l s' := by
  refine ⟨.same hprocs, .less ?_, ?_, fun u hu => .inl (hdone ▸ hu), .inl hawait, hmissing⟩
  · rw [hpending, hdone]
    exact (List.sublist_append_right s.pending s.done).subperm
  · intro n hn
    rcases hchild with h | h
    · exact .inl (h ▸ hn)
    · rw [h] at hn
      cases hn

theorem Effect.finish {l : Label} {w : Waited} {found : Row → St → St}
    (hawait : s.pc.awaited = some w.cid) (hfound : ∀ job, Effect s l
      (found job { s with children := s.children.insert w.cid (finishJob w job) })) :
    Effect s l (s.finish w found) := by
  unfold St.finish
  cases hl : s.children.lookup w.cid with
  | none => exact Effect.rollback rfl rfl rfl rfl (.inr ⟨w.cid, hawait, hl⟩) (.inr rfl)
  | some job => exact hfound job

theorem Effect.started {k : Caller} {l : Label} (hpc : s.pc = .starting k) :
    Effect s l (s.started k) := by
  cases k with
  | feed => exact Effect.commit rfl rfl
  | busywait => exact Effect.commit rfl rfl
  | loop t loopno => exact Effect.quiet rfl rfl rfl rfl (.inl rfl) (.inl (by rw [hpc]; rfl))

theorem effect_tick {t : St} (ht : tick cfg s = some t) : Effect s .tick t := by
  unfold tick at ht
  cases hpc : s.pc with
  | top =>
    simp only [hpc, Option.some.injEq] at ht
    subst ht
    split
    · exact Effect.quiet rfl rfl rfl rfl (.inl rfl) (.inr rfl)
    · exact Effect.quiet rfl rfl rfl rfl (.inl rfl) (.inr rfl)
  | handling =>
    simp only [hpc, Option.some.injEq] at ht
    subst ht
    split
    · exact Effect.quiet rfl rfl rfl rfl (.inl rfl) (.inr rfl)
    · exact Effect.quiet rfl rfl rfl rfl (.inl rfl) (.inr rfl)
  | feed =>
    simp only [hpc, Option.some.injEq] at ht
    subst ht
    split
    · exact Effect.quiet rfl rfl rfl rfl (.inl rfl) (.inr rfl)
    · exact Effect.quiet rfl rfl rfl rfl (.inl rfl) (.inr rfl)
  | rest =>
    simp only [hpc, Option.some.injEq] at ht
    subst ht
    split
    · exact Effect.quiet rfl rfl rfl rfl (.inl rfl) (.inr rfl)
    · exact Effect.quiet rfl rfl rfl rfl (.inl rfl) (.inr rfl)
  | starting k =>
    simp only [hpc] at ht
    split at ht
    · obtain rfl := Option.some.inj ht
      exact Effect.started hpc
    · cases ht
  | forked k job e n =>
    simp only [hpc] at ht
    split at ht
    · cases ht
    · obtain rfl := Option.some.inj ht
      refine ⟨.run k job e n hpc rfl, .less (List.Subperm.refl _), ?_, fun _ => .inl, .inl rfl, .inl rfl⟩
      intro m hm
      rw [hpc]
      exact .inl hm
  | ran k job e n =>
    simp only [hpc, Option.some.injEq] at ht
    subst ht
    exact Effect.quiet rfl rfl rfl rfl (.inl rfl) (.inl (by rw [hpc]; rfl))
  | entered k job e n =>
    simp only [hpc, Option.some.injEq] at ht
    subst ht
    exact Effect.quiet rfl rfl rfl rfl (.inl rfl) (.inl (by rw [hpc]; rfl))
  | took only n w =>
    simp only [hpc, Option.some.injEq] at ht
    subst ht
    exact Effect.finish (by rw [hpc]; rfl) fun _ => Effect.quiet rfl rfl rfl rfl (.inl rfl) (.inl (by rw [hpc]; rfl))
  | finished only c =>
    simp only [hpc, Option.some.injEq] at ht
    subst ht
    exact Effect.quiet rfl rfl rfl rfl (.inl rfl) (.inl (by rw [hpc]; rfl))
  | recording only c loopno =>
    simp only [hpc, Option.some.injEq] at ht
    subst ht
    refine ⟨.same rfl, .jobisdone only c loopno hpc rfl ?_, ?_, fun _ => .inl, .inl rfl, .inl rfl⟩
    · dsimp only
      rw [List.append_assoc]
      exact List.perm_middle
    · intro m hm
      rw [hpc]
      exact .inl hm
  | recorded only c loopno =>
    simp only [hpc, Option.some.injEq] at ht
    subst ht
    exact Effect.quiet rfl rfl rfl rfl (.inl rfl) (.inl (by rw [hpc]; rfl))
  | deleted only c loopno =>
    simp only [hpc, Option.some.injEq] at ht
    subst ht
    split
    · exact Effect.quiet rfl rfl rfl rfl (.inl rfl) (.inl (by rw [hpc]; rfl))
    · exact Effect.quiet rfl rfl rfl rfl (.inl rfl) (.inl (by rw [hpc]; rfl))
  | looping only c loopno =>
    simp only [hpc] at ht
    split at ht
    · obtain rfl := Option.some.inj ht
      exact Effect.commit (by cases only <;> rfl) (by cases only <;> rfl)
    · cases ht
  | tookMore only n w loopno =>
    simp only [hpc, Option.some.injEq] at ht
    subst ht
    exact Effect.finish (by rw [hpc]; rfl) fun _ => Effect.quiet rfl rfl rfl rfl (.inl rfl) (.inl (by rw [hpc]; rfl))
  | waiting only => simp [hpc] at ht
  | gone restart => simp [hpc] at ht
  | dead => simp [hpc] at ht

theorem Pc.block_child {pc pc' : Pc} (h : pc.block = some pc') : pc'.child = pc.child := by
  rcases Pc.block_cases h with ⟨k, rfl, hk⟩ | ⟨only, c, rfl, hc⟩
  · rw [hk]
    cases k <;> rfl
  · rw [hc]
    rfl

theorem Pc.block_awaited {pc pc' : Pc} (h : pc.block = some pc') : pc'.awaited = none := by
  rcases Pc.block_cases h with ⟨k, rfl, -⟩ | ⟨only, c, rfl, -⟩
  · cases k <;> rfl
  · rfl

theorem Proc.report_state {p p' : Proc} {status : Option Int} (h : p.report = some (status, p')) :
    ∃ st, p' = { p with state := st } := by
  unfold Proc.report at h
  split at h
  · exact ⟨_, (Prod.mk.inj (Option.some.inj h)).2.symm⟩
  · exact ⟨_, (Prod.mk.inj (Option.some.inj h)).2.symm⟩
  · cases h

theorem effect_report {t : St} {n : Nat} {f e : String} (ht : step cfg s (.report n f e) = some t) :
    Effect s (.report n f e) t := by
  obtain ⟨p, p', status, hn, hp, hpc⟩ := step_report ht
  obtain ⟨hst, -⟩ := Proc.report_some hp
  obtain ⟨st, rfl⟩ := Proc.report_state hp
  have hchild : ∀ m, some n = some m → s.pc.child = some m ∨ ∃ f' e', Label.report n f e = .report m f' e' := by
    intro m hm
    obtain rfl : n = m := Option.some.inj hm
    exact .inr ⟨f, e, rfl⟩
  rcases hpc with ⟨only, -, rfl⟩ | ⟨only, c, loopno, -, rfl⟩
  · exact ⟨.change n p st hn hst rfl, .less (List.Subperm.refl _), hchild, fun _ => .inl,
      .inr (.inr ⟨n, f, e, rfl⟩), .inl rfl⟩
  · exact ⟨.change n p st hn hst rfl, .less (List.Subperm.refl _), hchild, fun _ => .inl,
      .inr (.inr ⟨n, f, e, rfl⟩), .inl rfl⟩

/-- **What a step can do** to the processes, to the record, and to the child of the block. -/
theorem effect_step {t : St} {l : Label} (ht : step cfg s l = some t) : Effect s l t := by
  cases l with
  | tick => exact effect_tick ht
  | report n f e => exact effect_report ht
  | fork pid now =>
    obtain ⟨k, job, hpc, -, -, rfl⟩ := step_fork ht
    refine ⟨.fork _ k _ _ hpc rfl rfl, .less (List.Subperm.refl _), ?_, fun _ => .inl, .inl rfl,
      .inl rfl⟩
    intro m hm
    rw [hpc]
    exact .inl hm
  | nobody =>
    obtain ⟨only, c, loopno, -, rfl⟩ | ⟨rfl, -⟩ := step_nobody ht
    · exact Effect.commit (by cases only <;> rfl) (by cases only <;> rfl)
    · exact Effect.rollback rfl rfl rfl rfl (.inl rfl) (.inr rfl)
  | start =>
    obtain ⟨-, rfl⟩ := step_start ht
    exact Effect.quiet rfl rfl rfl rfl (.inl rfl) (.inr rfl)
  | signal sig =>
    obtain ⟨-, -, ⟨-, rfl⟩ | rfl⟩ := step_signal ht
    · exact Effect.rollback rfl rfl rfl rfl (.inl rfl) (.inr rfl)
    · exact Effect.quiet rfl rfl rfl rfl (.inr ⟨rfl, rfl⟩) (.inl rfl)
  | fail again =>
    obtain ⟨pc, hb, rfl⟩ := step_fail ht
    cases again with
    | false => exact Effect.rollback rfl rfl rfl rfl (.inl rfl) (.inr rfl)
    | true =>
      exact Effect.rollback rfl rfl rfl (Pc.block_awaited hb) (.inl rfl) (.inl (Pc.block_child hb))
  | proc n st =>
    obtain ⟨p, hn, hmove, rfl⟩ := step_proc ht
    exact ⟨.change n p st hn (ProcState.moves_not_reaped hmove).1 rfl, .less (List.Subperm.refl _),
      fun _ => .inl, fun _ => .inl, .inr (.inl ⟨rfl, rfl⟩), .inl rfl⟩
  | others jobs =>
    obtain ⟨-, -, rfl⟩ := step_others ht
    exact Effect.quiet rfl rfl rfl rfl (.inr ⟨rfl, rfl⟩) (.inl rfl)

/-! ## The record -/

/-- A process keeps its pid and its job, and a reaped one stays reaped. -/
theorem ProcsStep.onward {t : St} (h : ProcsStep s t) {i : Nat} {p : Proc} (hi : s.procs[i]? = some p) :
    ∃ q, t.procs[i]? = some q ∧ q.pid = p.pid ∧ q.jid = p.jid ∧
      (p.state = .reaped → q.state = .reaped) := by
  cases h with
  | same h =>
    rw [h]
    exact ⟨p, hi, rfl, rfl, id⟩
  | fork p' k job e hs hpc h =>
    rw [h]
    exact ⟨p, getElem?_of_mem_left hi, rfl, rfl, id⟩
  | run k job e n hpc h =>
    rw [h, List.getElem?_modify, hi]
    refine ⟨_, rfl, ?_⟩
    split <;> exact ⟨rfl, rfl, id⟩
  | change n p' st hn hst h =>
    rw [h]
    by_cases hin : i = n
    · subst hin
      obtain rfl := Option.some.inj (hn.symm.trans hi)
      have hlt : i < s.procs.length := (List.getElem?_eq_some_iff.mp hi).1
      exact ⟨_, List.getElem?_set_self hlt, rfl, rfl, fun hr => absurd hr hst⟩
    · exact ⟨p, by rw [List.getElem?_set_ne (Ne.symm hin), hi], rfl, rfl, id⟩

/-- The row of a job that runs is the one its jid finds. -/
theorem pid_of_runs {jobs : Jobs} {h : Hostname} {cid jid : Nat} (hr : Runs jobs h cid jid) :
    (jobs.rows.find? (·.jid == jid)).bind Row.pid = some (toString cid) := by
  obtain ⟨r, hr, hjid, -, -, hpid⟩ := hr
  cases hf : jobs.rows.find? (·.jid == jid) with
  | none =>
    have hne := List.find?_eq_none.mp hf r hr
    exact absurd hjid (by simpa using hne)
  | some r' =>
    have hjid' : r'.jid = jid := by simpa using List.find?_some hf
    obtain rfl := Jobs.eq_of_jid hr (List.mem_of_find?_eq_some hf) (hjid.trans hjid'.symm)
    exact hpid

/-- Every update is of the job of its process, and the row it finds has the pid of the process. -/
def Filed (s : St) : Prop :=
  ∀ u ∈ s.pending ++ s.done, ∃ p, s.procs[u.proc]? = some p ∧ p.jid = u.jid ∧
    u.pid = some (toString p.pid)

theorem filed_step {t : St} {l : Label} (hi : Inv cfg s) (hf : Filed s) (ht : step cfg s l = some t) :
    Filed t := by
  have heff := effect_step ht
  have hold : ∀ u ∈ s.pending ++ s.done, ∃ p, t.procs[u.proc]? = some p ∧ p.jid = u.jid ∧
      u.pid = some (toString p.pid) := by
    intro u hu
    obtain ⟨p, hp, hjid, hpid⟩ := hf u hu
    obtain ⟨q, hq, hqpid, hqjid, -⟩ := heff.procs.onward hp
    exact ⟨q, hq, hqjid.trans hjid, by rw [hpid, hqpid]⟩
  intro u hu
  cases heff.log with
  | less h => exact hold u (h.subset hu)
  | jobisdone only c loopno hpc hprocs h =>
    rcases List.mem_cons.mp (h.mem_iff.mp hu) with rfl | hu
    · have hhere := (hi.core (by rw [hpc]; simp)).here
      unfold Here at hhere
      rw [hpc] at hhere
      obtain ⟨⟨p, hp, hpid, hjid⟩, -, hruns⟩ := hhere
      rw [hprocs]
      refine ⟨p, hp, hjid, ?_⟩
      rw [hpid]
      exact pid_of_runs hruns
    · exact hold u hu

theorem filed_reach {good : St → Label → Prop} (hgood : ∀ s l, good s l → Keeps s l)
    (h : Reach Initial (step cfg) good s) : Filed s := by
  have hboth : Inv cfg s ∧ Filed s := by
    refine Reach.invariant (I := fun s => Inv cfg s ∧ Filed s) ?_ ?_ h
    · intro s h0
      refine ⟨inv_initial h0, ?_⟩
      obtain ⟨-, -, -, -, -, hpending, hdone, -⟩ := h0
      intro u hu
      rw [hpending, hdone] at hu
      exact absurd hu List.not_mem_nil
    · rintro s l t ⟨hi, hf⟩ hg ht
      exact ⟨inv_step hi (hgood s l hg) ht, filed_step hi hf ht⟩
  exact hboth.2

/-! ## The others -/

/-- A client of the queue, with plain arguments, is one of the others: it leaves running rows as they
    are. -/
theorem client_is_others {sqlite : OtherSql} {c : Client} {jobs : Jobs} (h : Core cfg s)
    (hb : s.pc.inBlock = false) (hc : c.Plain)
    (he : c.exec sqlite s.db = .ok jobs) :
    step cfg s (.others jobs) = some { s with db := jobs } := by
  have hwork := h.work_none hb
  have htbl : s.tbl = s.db := by simp [St.tbl, hwork]
  have hset : s.pc.unsettled = none := Pc.unsettled_none hb
  have hall : s.children.entries.all (fun c => decide (Runs jobs cfg.host c.1 c.2.jid)) = true := by
    rw [List.all_eq_true]
    rintro ⟨cid, job⟩ hmem
    have hruns := h.runs cid job (AList.mem_lookup_iff.mpr hmem) (by rw [hset]; simp)
    rw [htbl] at hruns
    exact decide_eq_true (System.sameRunning_runs (Client.sameRunning hc he) hruns)
  simp [step, hwork, hall]

end Steps

end RubyQueue.Daemon
