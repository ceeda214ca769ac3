/-
  The job runner daemon: which children does `shutdown` wait for?

  The feeder forks its jobs in a process of their own, through DRb, because nothing may be forked
  while a transaction is open.  This daemon keeps its children in `@runners`: `runner` puts one in,
  and each of `wait`, `wait2`, `waitpid` and `waitpid2` takes out the one it returns.  `shutdown`
  waits in a thread until `@runners` is empty, and then the daemon exits.

  With WUNTRACED a child is returned also when it has only stopped; it is taken out all the same,
  and nothing puts it back when it continues.

  * `waits_some`               — what any of the waits does;
  * `Inv.step`                 — the keys of `@runners` are the pids of the children that are not
                                 reaped and were never returned stopped;
  * `shutdown_leaves_no_child` — so a shutdown waits for all children but those, which may outlive
                                 it (`stopped_child_outlives`).

  A fork that fails leaves the daemon as it was, and is left out.
-/
import Mathlib.Data.Finset.Basic
import RubyQueue.Daemon

namespace RubyQueue.JobRunnerDaemon

open RubyQueue.Run
open RubyQueue.Daemon (Proc ProcState)

/-! ## The daemon -/

/-- How far the daemon is with its end.  `orphaned`: it has found its parent dead. -/
inductive Death
  | none
  | checking
  | waiting
  | gone
  | orphaned
deriving DecidableEq, Repr

/-- The daemon and its children.  `stops` are the children that were returned stopped, which the
    daemon does not remember. -/
structure State where
  procs : List Proc := []
  runners : Finset Nat := ∅
  death : Death := .none
  stops : List Nat := []

/-- It still answers. -/
def State.serves (s : State) : Bool :=
  s.death == .none || s.death == .checking || s.death == .waiting

inductive Label
  | runner (pid jid : Nat)
  -- `wait`, `wait2`, `waitpid` or `waitpid2` returns child `n`, with WUNTRACED or without
  | waits (untraced : Bool) (n : Nat)
  | shutdown
  -- the thread of `shutdown`: its test, and its `wait`, which may find no child
  | check
  | reap (n : Nat)
  | noChild
  | parentDied
  -- a child stops, continues or ends
  | proc (n : Nat) (state : ProcState)
deriving DecidableEq, Repr

/-- `pid, status = Process::waitpid2 …; @runners.delete pid`. -/
def State.waits (s : State) (untraced : Bool) (n : Nat) : Option State :=
  match s.procs[n]? with
  | none => none
  | some p =>
    match p.report with
    | none => none
    | some (_, p') =>
      let s' := { s with procs := s.procs.set n p', runners := s.runners.erase p.pid }
      if p'.state = .reaped then some s'
      else if untraced then some { s' with stops := n :: s.stops }
      else none

/-- One step; `none` when it cannot happen. -/
def step (s : State) : Label → Option State
  | .runner pid jid =>
    if s.serves && s.procs.all (fun p => p.state == .reaped || p.pid != pid) then
      some { s with
        procs := s.procs ++ [{ pid := pid, jid := jid }]
        runners := insert pid s.runners }
    else none
  | .waits untraced n => if s.serves then s.waits untraced n else none
  | .shutdown => if s.death = .none then some { s with death := .checking } else none
  | .check =>
    if s.death = .checking then
      some { s with death := if s.runners = ∅ then .gone else .waiting }
    else none
  | .reap n =>
    if s.death = .waiting then (s.waits false n).map fun t => { t with death := .checking }
    else none
  | .noChild =>
    if s.death = .waiting ∧ s.procs.all (fun p => p.state == .reaped) then
      some { s with death := .gone }
    else none
  | .parentDied => if s.serves then some { s with death := .orphaned } else none
  | .proc n state =>
    match s.procs[n]? with
    | none => none
    | some p =>
      if p.state.moves state then some { s with procs := s.procs.set n { p with state := state } }
      else none

/-- The daemon has just been started. -/
def Initial (s : State) : Prop := s = {}

/-! ## What a wait does -/

/-- Child `n` is not reaped. -/
def Unreaped (s : State) (n : Nat) (p : Proc) : Prop :=
  s.procs[n]? = some p ∧ p.state ≠ .reaped

/-- Child `n` is not reaped, and was never returned stopped. -/
def Watched (s : State) (n : Nat) (p : Proc) : Prop := Unreaped s n p ∧ n ∉ s.stops

/-- **The spec of the waits**: a child that was not reaped is returned, its pid is deleted, and it
    is reaped or noted down as stopped; the others stay as they are. -/
theorem waits_some {s t : State} {untraced : Bool} {n : Nat} (h : s.waits untraced n = some t) :
    ∃ p p', Unreaped s n p ∧ p'.pid = p.pid ∧
      t.procs = s.procs.set n p' ∧ t.runners = s.runners.erase p.pid ∧ t.death = s.death ∧
      ((p'.state = .reaped ∧ t.stops = s.stops) ∨
        (p'.state ≠ .reaped ∧ t.stops = n :: s.stops)) := by
  unfold State.waits at h
  split at h
  · cases h
  rename_i p hp
  split at h
  · cases h
  rename_i status p' hreport
  have hp' : p.state ≠ .reaped ∧ p'.pid = p.pid := by
    unfold Proc.report at hreport
    split at hreport
    · rename_i st hst
      cases hreport
      exact ⟨by rw [hst]; simp, rfl⟩
    · rename_i hst
      cases hreport
      exact ⟨by rw [hst]; simp, rfl⟩
    · cases hreport
  simp only at h
  split at h
  · rename_i hreaped
    cases h
    exact ⟨p, p', ⟨hp, hp'.1⟩, hp'.2, rfl, rfl, rfl, Or.inl ⟨hreaped, rfl⟩⟩
  · rename_i hstopped
    split at h
    · cases h
      exact ⟨p, p', ⟨hp, hp'.1⟩, hp'.2, rfl, rfl, rfl, Or.inr ⟨hstopped, rfl⟩⟩
    · cases h

/-! ## The invariant -/

structure Inv (s : State) : Prop where
  distinct : ∀ {n m p q}, Unreaped s n p → Unreaped s m q → p.pid = q.pid → n = m
  exact : ∀ pid, pid ∈ s.runners ↔ ∃ n p, Watched s n p ∧ p.pid = pid
  noted : ∀ n ∈ s.stops, n < s.procs.length
  gone : s.death = .gone → ∀ n p, ¬ Watched s n p

section Step

variable {s t : State}

/-- A child is replaced by one with its pid, and is not brought back to life. -/
theorem unreaped_set {n : Nat} {p' : Proc}
    (hprocs : t.procs = s.procs.set n p') {m : Nat} {q : Proc} (hq : Unreaped t m q) :
    (m = n ∧ q = p') ∨ (m ≠ n ∧ Unreaped s m q) := by
  obtain ⟨hq, hstate⟩ := hq
  rw [hprocs, List.getElem?_set] at hq
  split at hq
  · rename_i hnm
    split at hq
    · exact Or.inl ⟨hnm.symm, (Option.some.inj hq).symm⟩
    · cases hq
  · rename_i hnm
    exact Or.inr ⟨fun heq => hnm heq.symm, hq, hstate⟩

theorem unreaped_set_of_ne {n : Nat} {p' : Proc} (hprocs : t.procs = s.procs.set n p') {m : Nat}
    {q : Proc} (hm : m ≠ n) (hq : Unreaped s m q) : Unreaped t m q := by
  refine ⟨?_, hq.2⟩
  rw [hprocs, List.getElem?_set_ne hm.symm]
  exact hq.1

theorem distinct_set (hi : Inv s) {n : Nat} {p p' : Proc} (hp : Unreaped s n p)
    (hpid : p'.pid = p.pid) (hprocs : t.procs = s.procs.set n p') {a b : Nat} {q r : Proc}
    (hq : Unreaped t a q) (hr : Unreaped t b r) (heq : q.pid = r.pid) : a = b := by
  rcases unreaped_set hprocs hq with ⟨rfl, rfl⟩ | ⟨hne, hq⟩
  · rcases unreaped_set hprocs hr with ⟨rfl, rfl⟩ | ⟨hne', hr⟩
    · rfl
    · exact hi.distinct hp hr (hpid.symm.trans heq)
  · rcases unreaped_set hprocs hr with ⟨rfl, rfl⟩ | ⟨hne', hr⟩
    · exact hi.distinct hq hp (heq.trans hpid)
    · exact hi.distinct hq hr heq

/-- **A wait** takes out of `@runners` what it takes out of the watched children. -/
theorem Inv.waits (hi : Inv s) {untraced : Bool} {n : Nat} (h : s.waits untraced n = some t)
    (hgone : t.death ≠ .gone) : Inv t := by
  obtain ⟨p, p', hp, hpid, hprocs, hrunners, -, hcase⟩ := waits_some h
  have hlen : n < s.procs.length := (List.getElem?_eq_some_iff.mp hp.1).1
  have hsub : ∀ m ∈ t.stops, m ∈ s.stops ∨ m = n := by
    intro m hm
    rcases hcase with ⟨-, hstops⟩ | ⟨-, hstops⟩
    · exact Or.inl (hstops ▸ hm)
    · rw [hstops] at hm
      exact (List.mem_cons.mp hm).symm
  -- the other watched children
  have hwatched : ∀ m q, Watched t m q ↔ m ≠ n ∧ Watched s m q := by
    intro m q
    constructor
    · rintro ⟨hq, hstop⟩
      rcases unreaped_set hprocs hq with ⟨rfl, rfl⟩ | ⟨hne, hq'⟩
      · rcases hcase with ⟨hreaped, -⟩ | ⟨-, hstops⟩
        · exact absurd hreaped hq.2
        · exact absurd (hstops ▸ List.mem_cons_self) hstop
      · refine ⟨hne, hq', fun hm => hstop ?_⟩
        rcases hcase with ⟨-, hstops⟩ | ⟨-, hstops⟩
        · exact hstops ▸ hm
        · exact hstops ▸ List.mem_cons_of_mem n hm
    · rintro ⟨hne, hq, hstop⟩
      refine ⟨unreaped_set_of_ne hprocs hne hq, fun hm => ?_⟩
      rcases hsub m hm with hm | rfl
      · exact hstop hm
      · exact hne rfl
  refine ⟨fun hq hr heq => distinct_set hi hp hpid hprocs hq hr heq, fun pid => ?_, fun m hm => ?_,
    fun hg => absurd hg hgone⟩
  · rw [hrunners, Finset.mem_erase, hi.exact]
    constructor
    · rintro ⟨hne, m, q, hq, hqpid⟩
      refine ⟨m, q, (hwatched m q).mpr ⟨?_, hq⟩, hqpid⟩
      rintro rfl
      obtain rfl : p = q := Option.some.inj (hp.1.symm.trans hq.1.1)
      exact hne hqpid.symm
    · rintro ⟨m, q, hq, hqpid⟩
      obtain ⟨hne, hq⟩ := (hwatched m q).mp hq
      refine ⟨?_, m, q, hq, hqpid⟩
      rintro rfl
      exact hne (hi.distinct hq.1 hp hqpid)
  · rw [hprocs, List.length_set]
    rcases hsub m hm with hm | rfl
    · exact hi.noted m hm
    · exact hlen

/-- A child stops, continues or ends. -/
theorem Inv.proc (hi : Inv s) {n : Nat} {p : Proc} {state : ProcState} (hp : s.procs[n]? = some p)
    (hmoves : p.state.moves state = true) :
    Inv { s with procs := s.procs.set n { p with state := state } } := by
  obtain ⟨hold, hnew⟩ := Daemon.ProcState.moves_not_reaped hmoves
  have hun : Unreaped s n p := ⟨hp, hold⟩
  have hlen : n < s.procs.length := (List.getElem?_eq_some_iff.mp hp).1
  -- the pids of the watched children are the same
  have hpids : ∀ pid,
      (∃ m q, Watched { s with procs := s.procs.set n { p with state := state } } m q ∧
        q.pid = pid) ↔ ∃ m q, Watched s m q ∧ q.pid = pid := by
    intro pid
    constructor
    · rintro ⟨m, q, ⟨hq, hstop⟩, hqpid⟩
      rcases unreaped_set rfl hq with ⟨rfl, rfl⟩ | ⟨-, hq⟩
      · exact ⟨m, p, ⟨hun, hstop⟩, hqpid⟩
      · exact ⟨m, q, ⟨hq, hstop⟩, hqpid⟩
    · rintro ⟨m, q, ⟨hq, hstop⟩, hqpid⟩
      by_cases hm : m = n
      · subst hm
        obtain rfl : p = q := Option.some.inj (hp.symm.trans hq.1)
        exact ⟨m, { p with state := state }, ⟨⟨List.getElem?_set_self hlen, hnew⟩, hstop⟩, hqpid⟩
      · exact ⟨m, q, ⟨unreaped_set_of_ne rfl hm hq, hstop⟩, hqpid⟩
  have hpid : ({ p with state := state } : Proc).pid = p.pid := rfl
  refine ⟨fun hq hr heq => distinct_set hi hun hpid rfl hq hr heq, fun pid => ?_, fun m hm => ?_,
    fun hg m q hq => ?_⟩
  · exact (hi.exact pid).trans (hpids pid).symm
  · show m < (s.procs.set n _).length
    rw [List.length_set]
    exact hi.noted m hm
  · obtain ⟨m', q', hq', -⟩ := (hpids q.pid).mp ⟨m, q, hq, rfl⟩
    exact hi.gone hg m' q' hq'

/-- A fork: the pid is that of no child that is not reaped. -/
theorem Inv.runner (hi : Inv s) {pid jid : Nat} (hserves : s.serves = true)
    (hfree : ∀ p ∈ s.procs, p.state ≠ .reaped → p.pid ≠ pid) :
    Inv { s with
      procs := s.procs ++ [{ pid := pid, jid := jid }], runners := insert pid s.runners } := by
  have hcases : ∀ {m : Nat} {q : Proc},
      (s.procs ++ [({ pid := pid, jid := jid } : Proc)])[m]? = some q →
      s.procs[m]? = some q ∨ (m = s.procs.length ∧ q = { pid := pid, jid := jid }) := by
    intro m q hq
    rw [List.getElem?_append] at hq
    split at hq
    · exact Or.inl hq
    · rename_i hge
      rw [List.getElem?_singleton] at hq
      split at hq
      · exact Or.inr ⟨by omega, (Option.some.inj hq).symm⟩
      · cases hq
  have hkept : ∀ {m : Nat} {q : Proc}, s.procs[m]? = some q →
      (s.procs ++ [({ pid := pid, jid := jid } : Proc)])[m]? = some q := by
    intro m q hq
    rw [List.getElem?_append_left (List.getElem?_eq_some_iff.mp hq).1]
    exact hq
  have hother : ∀ {m : Nat} {q : Proc}, Unreaped s m q → q.pid ≠ pid := fun hq =>
    hfree _ (List.mem_of_getElem? hq.1) hq.2
  refine ⟨?_, fun k => ?_, fun m hm => ?_, fun hg => ?_⟩
  · rintro a b q r ⟨hq, hqs⟩ ⟨hr, hrs⟩ heq
    rcases hcases hq with hq | ⟨rfl, rfl⟩
    · rcases hcases hr with hr | ⟨rfl, rfl⟩
      · exact hi.distinct ⟨hq, hqs⟩ ⟨hr, hrs⟩ heq
      · exact absurd heq (hother ⟨hq, hqs⟩)
    · rcases hcases hr with hr | ⟨rfl, rfl⟩
      · exact absurd heq.symm (hother ⟨hr, hrs⟩)
      · rfl
  · show k ∈ insert pid s.runners ↔ _
    rw [Finset.mem_insert, hi.exact]
    constructor
    · rintro (rfl | ⟨m, q, ⟨⟨hq, hqs⟩, hstop⟩, hqpid⟩)
      · refine ⟨s.procs.length, { pid := k, jid := jid }, ⟨⟨?_, by simp⟩, fun hm => ?_⟩, rfl⟩
        · show (s.procs ++ _)[s.procs.length]? = _
          simp
        · exact absurd (hi.noted _ hm) (Nat.lt_irrefl _)
      · exact ⟨m, q, ⟨⟨hkept hq, hqs⟩, hstop⟩, hqpid⟩
    · rintro ⟨m, q, ⟨⟨hq, hqs⟩, hstop⟩, hqpid⟩
      rcases hcases hq with hq | ⟨rfl, rfl⟩
      · exact Or.inr ⟨m, q, ⟨⟨hq, hqs⟩, hstop⟩, hqpid⟩
      · exact Or.inl hqpid.symm
  · show m < (s.procs ++ _).length
    rw [List.length_append]
    exact Nat.lt_add_right _ (hi.noted m hm)
  · have hg : s.death = .gone := hg
    rw [State.serves, hg] at hserves
    exact absurd hserves (by decide)

/-- The rest of a state may change. -/
theorem Inv.death (hi : Inv s) {death : Death} (hgone : death = .gone → ∀ n p, ¬ Watched s n p) :
    Inv { s with death := death } :=
  ⟨hi.distinct, hi.exact, hi.noted, hgone⟩

/-- **A step** keeps the invariant. -/
theorem Inv.step {l : Label} (hi : Inv s) (h : step s l = some t) : Inv t := by
  cases l with
  | runner pid jid =>
    simp only [JobRunnerDaemon.step] at h
    split at h
    · rename_i hc
      cases h
      obtain ⟨hserves, hfree⟩ := Bool.and_eq_true_iff.mp hc
      refine hi.runner hserves fun p hp hstate hpid => ?_
      have := List.all_eq_true.mp hfree p hp
      simp [hstate, hpid] at this
    · cases h
  | waits untraced n =>
    simp only [JobRunnerDaemon.step] at h
    split at h
    · rename_i hserves
      refine hi.waits h fun hg => ?_
      obtain ⟨-, -, -, -, -, -, hdeath, -⟩ := waits_some h
      rw [State.serves, ← hdeath, hg] at hserves
      exact absurd hserves (by decide)
    · cases h
  | shutdown =>
    simp only [JobRunnerDaemon.step] at h
    split at h
    · cases h
      exact hi.death nofun
    · cases h
  | check =>
    simp only [JobRunnerDaemon.step] at h
    split at h
    · cases h
      refine hi.death fun hg n p hp => ?_
      split at hg
      · -- `@runners` is empty
        rename_i hempty
        have hmem : p.pid ∈ s.runners := (hi.exact p.pid).mpr ⟨n, p, hp, rfl⟩
        rw [hempty] at hmem
        exact absurd hmem (Finset.notMem_empty _)
      · cases hg
    · cases h
  | reap n =>
    simp only [JobRunnerDaemon.step] at h
    split at h
    · rename_i hwaiting
      obtain ⟨u, hu, rfl⟩ := Option.map_eq_some_iff.mp h
      have hu' : Inv u := by
        refine hi.waits hu fun hg => ?_
        obtain ⟨-, -, -, -, -, -, hdeath, -⟩ := waits_some hu
        rw [hdeath, hwaiting] at hg
        cases hg
      exact hu'.death nofun
    · cases h
  | noChild =>
    simp only [JobRunnerDaemon.step] at h
    split at h
    · rename_i hc
      cases h
      refine hi.death fun _ n p hp => hp.1.2 ?_
      simpa using List.all_eq_true.mp hc.2 p (List.mem_of_getElem? hp.1.1)
    · cases h
  | parentDied =>
    simp only [JobRunnerDaemon.step] at h
    split at h
    · cases h
      exact hi.death nofun
    · cases h
  | proc n state =>
    simp only [JobRunnerDaemon.step] at h
    split at h
    · cases h
    · rename_i p hp
      split at h
      · rename_i hmoves
        cases h
        exact hi.proc hp hmoves
      · cases h

end Step

/-! ## Every run -/

theorem inv_of_reach {s : State} (h : Reach Initial step (fun _ _ => True) s) : Inv s := by
  refine Reach.invariant ?_ (fun s l t hs _ hst => hs.step hst) h
  rintro s rfl
  have hnone : ∀ n p, ¬ Unreaped {} n p := fun n p hp => by
    have : (([] : List Proc)[n]?) = some p := hp.1
    cases this
  refine ⟨fun hp => absurd hp (hnone _ _), fun pid => ⟨fun hm => ?_, ?_⟩, fun m hm => ?_,
    fun hg => ?_⟩
  · exact absurd hm (Finset.notMem_empty pid)
  · rintro ⟨n, p, hp, -⟩
    exact absurd hp.1 (hnone n p)
  · cases hm
  · cases hg

/-- **What `shutdown` waits for.**  In every run of the daemon, its feeder and its children: the
    keys of `@runners` are the pids of the children that are not reaped and were never returned
    stopped; and when a shutdown is over, every child is reaped or was once returned stopped. -/
theorem shutdown_leaves_no_child (s : State) (h : Reach Initial step (fun _ _ => True) s) :
    (∀ pid, pid ∈ s.runners ↔
      ∃ n p, s.procs[n]? = some p ∧ p.pid = pid ∧ p.state ≠ .reaped ∧ n ∉ s.stops) ∧
    (s.death = .gone → ∀ n p, s.procs[n]? = some p → p.state = .reaped ∨ n ∈ s.stops) := by
  have hi := inv_of_reach h
  refine ⟨fun pid => (hi.exact pid).trans ?_, fun hg n p hp => ?_⟩
  · constructor
    · rintro ⟨n, p, ⟨⟨hp, hstate⟩, hstop⟩, hpid⟩
      exact ⟨n, p, hp, hpid, hstate, hstop⟩
    · rintro ⟨n, p, hp, hpid, hstate, hstop⟩
      exact ⟨n, p, ⟨⟨hp, hstate⟩, hstop⟩, hpid⟩
  · by_contra hno
    obtain ⟨hstate, hstop⟩ := not_or.mp hno
    exact hi.gone hg n p ⟨⟨hp, hstate⟩, hstop⟩

/-- A shutdown with one child, which it reaps. -/
theorem shutdown_reaps_child : ∃ s : State, exec step [.runner 100 1, .shutdown, .check,
      .proc 0 (.ended (some 0)), .reap 0, .check] {} = some s ∧ s.death = .gone ∧
    ∀ (n : Nat) (p : Proc), s.procs[n]? = some p → p.state = .reaped := by
  obtain ⟨s, hs, hobs⟩ : ∃ s : State, exec step [.runner 100 1, .shutdown, .check,
      .proc 0 (.ended (some 0)), .reap 0, .check] {} = some s ∧
      decide (s.death = .gone ∧ s.stops = []) = true := exists_of_any (by decide)
  obtain ⟨hgone, hstops⟩ := of_decide_eq_true hobs
  have hr : Reach Initial step (fun _ _ => True) s :=
    Reach.exec (Reach.init rfl) (along_true _ _) hs
  refine ⟨s, hs, hgone, fun n p hp => ?_⟩
  rcases (shutdown_leaves_no_child s hr).2 hgone n p hp with hreaped | hstop
  · exact hreaped
  · rw [hstops] at hstop
    cases hstop

/-- A child that is returned stopped and continues outlives the daemon. -/
theorem stopped_child_outlives : ∃ s : State, Reach Initial step (fun _ _ => True) s ∧
    s.death = .gone ∧ ∃ p, s.procs[0]? = some p ∧ p.state = .running := by
  obtain ⟨s, hs, hobs⟩ : ∃ s : State, exec step [.runner 100 1, .proc 0 (.stopped false),
      .waits true 0, .proc 0 .running, .shutdown, .check] {} = some s ∧
      decide (s.death = .gone ∧ (s.procs[0]?).map Proc.state = some .running) = true :=
    exists_of_any (by decide)
  obtain ⟨hgone, hstate⟩ := of_decide_eq_true hobs
  obtain ⟨p, hp, hrun⟩ := Option.map_eq_some_iff.mp hstate
  exact ⟨s, Reach.exec (Reach.init rfl) (along_true _ _) hs, hgone, p, hp, hrun⟩

end RubyQueue.JobRunnerDaemon
