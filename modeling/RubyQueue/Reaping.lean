/-
  Finished means terminated: what `reap_jobs` makes of the statuses `waitpid2` reports.

  All four calls of `waitpid2` pass WUNTRACED, so a child that stops is reported as well, with a
  status that has no exit status.  `finish_job` does not look at the kind of the status: the row of a
  stopped child is set to 'finished' and the child is deleted from `@children`.  When it goes on and
  ends, it is reported again, and there is no job left for it.

  * `Reports`  — the runs without that: every status reported is of a process that has ended, and no
    update is lost with a failed transaction;
  * `finished_means_terminated` — in such a run every update is of a terminated process, there is one
    for each, and `finish_job` has its job;
  * `stopped_child_is_finished` — a run with a stopped child.
-/
import RubyQueue.Shutdown

namespace RubyQueue.Daemon

open RubyQueue.JobQueue RubyQueue.Qdb RubyQueue.Feeder RubyQueue.Run

/-! ## What a state is to be like -/

/-- The updates made so far: of terminated processes only, whose pid the row has; at most one for
    each; and one for each child that was reported and is no longer in hand.  The children that were
    not reported are in `@children`, and `finish_job` never missed one. -/
structure Faithful (s : St) : Prop where
  terminated : ∀ u ∈ s.pending ++ s.done, ∃ p, s.procs[u.proc]? = some p ∧ p.terminated = true ∧
    p.jid = u.jid ∧ u.pid = some (toString p.pid)
  once : ((s.pending ++ s.done).map Update.proc).Nodup
  each : ∀ n p, s.procs[n]? = some p → p.ran = true → s.Logged n ∨ s.pc.hand = some n ∨
    (p.state ≠ .reaped ∧ p.pid ∈ s.children)
  found : s.missing = false

/-- No status of a stopped process is reported, and no transaction that has recorded a child, or has
    one in hand, fails for good. -/
def Reports (s : St) (l : Label) : Prop :=
  Keeps s l ∧
    match l with
    | .report n _ _ => (s.procs[n]?).all fun p => p.state != .stopped false
    | .fail false => s.pending = [] ∧ s.pc.hand = none
    | _ => True

/-! ## The invariant -/

/-- A process that was not run is the one just forked, or the feeder is no more. -/
def Pc.idle : Pc → Nat → Prop
  | .forked _ _ _ m, n => m = n
  | .gone _, _ => True
  | .dead, _ => True
  | _, _ => False

structure Told (s : St) : Prop where
  reaped : ∀ u ∈ s.pending ++ s.done, ∃ p, s.procs[u.proc]? = some p ∧ p.state = .reaped
  once : ((s.pending ++ s.done).map Update.proc).Nodup
  ran : ∀ n p, s.procs[n]? = some p → p.ran = true ∨ s.pc.idle n
  child : ∀ n, s.pc.child = some n → ∃ p, s.procs[n]? = some p ∧ p.state = .reaped
  awaited : ∀ c, s.pc.awaited = some c → c ∈ s.children
  each : ∀ n p, s.procs[n]? = some p → p.ran = true → s.Logged n ∨ s.pc.hand = some n ∨
    (p.state ≠ .reaped ∧ p.pid ∈ s.children)
  found : s.missing = false

section Steps

variable {cfg : Config} {s t : St} {l : Label}

theorem mem_children {c : Nat} : c ∈ s.children ↔ ∃ job, s.children.lookup c = some job := by
  rw [← AList.lookup_isSome, Option.isSome_iff_exists]

/-- A reported child is in hand until its job is recorded. -/
theorem Core.logged_or_hand (h : Core cfg s) {n : Nat} (hcur : s.pc.cur = some n) :
    s.Logged n ∨ s.pc.hand = some n := by
  have hhere := h.here
  unfold Here at hhere
  cases hpc : s.pc <;> rw [hpc] at hcur hhere
  case recorded =>
    obtain rfl := Option.some.inj hcur
    exact .inl hhere.2
  all_goals first | exact .inr hcur | cases hcur

theorem Core.each (h : Core cfg s) {n : Nat} {p : Proc} (hn : s.procs[n]? = some p)
    (hran : p.ran = true) :
    s.Logged n ∨ s.pc.hand = some n ∨ (p.state ≠ .reaped ∧ p.pid ∈ s.children) := by
  rcases h.covered n p hn hran with hl | ⟨job, hl, hst | hcur⟩ | hh
  · exact .inl hl
  · exact .inr (.inr ⟨hst, mem_children.mpr ⟨job, hl⟩⟩)
  · exact (h.logged_or_hand hcur).imp_right .inl
  · exact .inr (.inl hh)

/-! ## The record -/

theorem told_reaped (hk : Told s) (ht : step cfg s l = some t) :
    ∀ u ∈ t.pending ++ t.done, ∃ p, t.procs[u.proc]? = some p ∧ p.state = .reaped := by
  have heff := effect_step ht
  have hstay : ∀ {n : Nat}, (∃ p, s.procs[n]? = some p ∧ p.state = .reaped) →
      ∃ p, t.procs[n]? = some p ∧ p.state = .reaped := by
    rintro n ⟨p, hp, hst⟩
    obtain ⟨q, hq, -, -, hq'⟩ := heff.procs.onward hp
    exact ⟨q, hq, hq' hst⟩
  intro u hu
  cases heff.log with
  | less h => exact hstay (hk.reaped u (h.subset hu))
  | jobisdone only c loopno hpc hprocs h =>
    rcases List.mem_cons.mp (h.mem_iff.mp hu) with rfl | hu
    · exact hstay (hk.child c.proc (by rw [hpc]; rfl))
    · exact hstay (hk.reaped u hu)

theorem told_once (hi : Inv cfg s) (hk : Told s) (ht : step cfg s l = some t) :
    ((t.pending ++ t.done).map Update.proc).Nodup := by
  cases (effect_step ht).log with
  | less h =>
    obtain ⟨us, hperm, hsub⟩ := h
    exact ((hperm.map Update.proc).nodup_iff.mp ((hsub.map Update.proc).nodup hk.once))
  | jobisdone only c loopno hpc hprocs h =>
    have hnew : ¬ s.Logged c.proc := by
      have hhere := (hi.core (by rw [hpc]; simp)).here
      unfold Here at hhere
      rw [hpc] at hhere
      exact hhere.2.1
    rw [(h.map Update.proc).nodup_iff, List.map_cons, List.nodup_cons]
    refine ⟨?_, hk.once⟩
    intro hmem
    obtain ⟨u, hu, hproc⟩ := List.mem_map.mp hmem
    exact hnew ⟨u, hu, hproc⟩

/-! ## The report -/

/-- `waitpid2` returns a process to a feeder that has nothing in hand and has run what it forked. -/
theorem report_cases {n : Nat} {f e : String} (ht : step cfg s (.report n f e) = some t) :
    ∃ p p' status, s.procs[n]? = some p ∧ p.report = some (status, p') ∧
      t.procs = s.procs.set n p' ∧ t.children = s.children ∧ t.pc.awaited = some p.pid ∧
      s.pc.hand = none ∧ ∀ m, ¬ s.pc.idle m := by
  obtain ⟨p, p', status, hn, hp, hpc⟩ := step_report ht
  refine ⟨p, p', status, hn, hp, ?_⟩
  rcases hpc with ⟨only, hpc, rfl⟩ | ⟨only, c, loopno, hpc, rfl⟩ <;> rw [hpc]
  · exact ⟨rfl, rfl, rfl, rfl, fun _ => id⟩
  · exact ⟨rfl, rfl, rfl, rfl, fun _ => id⟩

/-- A status that is not a stop: the process had ended, and is reaped. -/
theorem Proc.report_ended {p p' : Proc} {status : Option Int} (h : p.report = some (status, p'))
    (hstop : p.state ≠ .stopped false) : p'.state = .reaped := by
  unfold Proc.report at h
  split at h
  · obtain ⟨-, rfl⟩ := Prod.mk.inj (Option.some.inj h)
    rfl
  · rename_i hst
    exact absurd hst hstop
  · cases h

theorem told_child (hk : Told s) (hg : Reports s l) (ht : step cfg s l = some t) :
    ∀ n, t.pc.child = some n → ∃ p, t.procs[n]? = some p ∧ p.state = .reaped := by
  have heff := effect_step ht
  intro n hn
  rcases heff.child n hn with hn | ⟨f, e, rfl⟩
  · obtain ⟨p, hp, hst⟩ := hk.child n hn
    obtain ⟨q, hq, -, -, hq'⟩ := heff.procs.onward hp
    exact ⟨q, hq, hq' hst⟩
  · obtain ⟨p, p', status, hp, hrep, hprocs, -⟩ := report_cases ht
    have hstop : p.state ≠ .stopped false := by
      have h := hg.2
      dsimp only at h
      rw [hp] at h
      simpa using h
    have hlt : n < s.procs.length := (List.getElem?_eq_some_iff.mp hp).1
    rw [hprocs]
    exact ⟨p', List.getElem?_set_self hlt, Proc.report_ended hrep hstop⟩

/-- A child that is reported was not recorded, so it is in `@children`. -/
theorem told_awaited (hk : Told s) (ht : step cfg s l = some t) :
    ∀ c, t.pc.awaited = some c → c ∈ t.children := by
  intro c hc
  rcases (effect_step ht).awaited with h | ⟨hpc, hchildren⟩ | ⟨n, f, e, rfl⟩
  · rw [h] at hc
    cases hc
  · rw [hpc] at hc
    rw [hchildren]
    exact hk.awaited c hc
  · obtain ⟨p, p', status, hp, hrep, -, hchildren, hawait, hhand, hidle⟩ := report_cases ht
    obtain ⟨hst, -⟩ := Proc.report_some hrep
    have hran : p.ran = true := (hk.ran n p hp).resolve_right (hidle n)
    rw [hawait] at hc
    obtain rfl := Option.some.inj hc
    rw [hchildren]
    rcases hk.each n p hp hran with ⟨u, hu, rfl⟩ | hh | ⟨-, hmem⟩
    · obtain ⟨q, hq, hqst⟩ := hk.reaped u hu
      obtain rfl := Option.some.inj (hp.symm.trans hq)
      exact absurd hqst hst
    · rw [hhand] at hh
      cases hh
    · exact hmem

theorem told_found (hk : Told s) (ht : step cfg s l = some t) : t.missing = false := by
  rcases (effect_step ht).missing with h | ⟨c, hc, hl⟩
  · exact h.trans hk.found
  · obtain ⟨job, hjob⟩ := mem_children.mp (hk.awaited c hc)
    rw [hl] at hjob
    cases hjob

/-! ## The processes that were run -/

/-- A feeder that is no more takes no step. -/
theorem gone_step (ht : step cfg s l = some t) (hpc : (∃ restart, s.pc = .gone restart) ∨ s.pc = .dead) :
    (∃ n p st, s.procs[n]? = some p ∧ p.state.moves st = true ∧
        t = { s with procs := s.procs.set n { p with state := st } }) ∨
      ∃ jobs, t = { s with db := jobs } := by
  cases l with
  | proc n st =>
    obtain ⟨p, hn, hmove, rfl⟩ := step_proc ht
    exact .inl ⟨n, p, st, hn, hmove, rfl⟩
  | others jobs =>
    obtain ⟨-, -, rfl⟩ := step_others ht
    exact .inr ⟨jobs, rfl⟩
  | tick =>
    have ht : tick cfg s = some t := ht
    rcases hpc with ⟨restart, hpc⟩ | hpc <;> simp [tick, hpc] at ht
  | report n f e =>
    obtain ⟨-, -, -, -, -, -, -, -, -, hidle⟩ := report_cases ht
    rcases hpc with ⟨restart, hpc⟩ | hpc <;> exact absurd (by rw [hpc]; trivial) (hidle n)
  | fail again => rcases hpc with ⟨restart, hpc⟩ | hpc <;> simp [step, hpc, Pc.block] at ht
  | _ => rcases hpc with ⟨restart, hpc⟩ | hpc <;> simp [step, hpc] at ht

theorem gone_step_pc (ht : step cfg s l = some t)
    (hpc : (∃ restart, s.pc = .gone restart) ∨ s.pc = .dead) : t.pc = s.pc := by
  obtain ⟨n, p, st, -, -, rfl⟩ | ⟨jobs, rfl⟩ := gone_step ht hpc <;> rfl

/-- From `forked` the feeder goes on with `jr.run`, or is no more; a transaction that forked is not
    run again. -/
theorem idle_step (hi : Inv cfg s) (hg : Keeps s l) (ht : step cfg s l = some t) {n : Nat}
    (hn : s.pc.idle n) : t.pc.idle n ∨ ∃ k job e, s.pc = .forked k job e n ∧
      t.procs = s.procs.modify n fun p => { p with ran := true } := by
  cases hpc : s.pc with
  | forked k job e m =>
    rw [hpc] at hn
    obtain rfl : m = n := hn
    cases l with
    | tick =>
      have ht : tick cfg s = some t := ht
      simp only [tick, hpc] at ht
      split at ht
      · cases ht
      · obtain rfl := Option.some.inj ht
        exact .inr ⟨k, job, e, rfl, rfl⟩
    | signal sig =>
      obtain ⟨-, -, ⟨-, rfl⟩ | rfl⟩ := step_signal ht
      · exact .inl trivial
      · exact .inl (by rw [hpc]; rfl)
    | fail again =>
      obtain ⟨pc, hb, rfl⟩ := step_fail ht
      cases again with
      | true =>
        have hhere := (hi.core (by rw [hpc]; simp)).here
        unfold Here at hhere
        rw [hpc] at hhere
        have hmark : s.mark = s.procs.length := hg.1
        exact absurd hhere.2.2.1 (by omega)
      | false => exact .inl trivial
    | proc m st =>
      obtain ⟨p, -, -, rfl⟩ := step_proc ht
      exact .inl (by rw [hpc]; rfl)
    | others jobs =>
      obtain ⟨-, -, rfl⟩ := step_others ht
      exact .inl (by rw [hpc]; rfl)
    | report n f e' =>
      obtain ⟨-, -, -, -, -, -, -, -, -, hidle⟩ := report_cases ht
      exact absurd (by rw [hpc]; rfl) (hidle m)
    | _ => simp [step, hpc] at ht
  | gone restart => exact .inl (by rw [gone_step_pc ht (.inl ⟨restart, hpc⟩), hpc]; trivial)
  | dead => exact .inl (by rw [gone_step_pc ht (.inr hpc), hpc]; trivial)
  | _ => rw [hpc] at hn; cases hn

theorem told_ran (hi : Inv cfg s) (hk : Told s) (hg : Keeps s l) (ht : step cfg s l = some t) :
    ∀ n p, t.procs[n]? = some p → p.ran = true ∨ t.pc.idle n := by
  intro n p hn
  have hold : ∀ {q : Proc}, s.procs[n]? = some q → q.ran = p.ran → p.ran = true ∨ t.pc.idle n := by
    intro q hq hran
    rcases hk.ran n q hq with h | h
    · exact .inl (hran ▸ h)
    · rcases idle_step hi hg ht h with h | ⟨k, job, e, -, hprocs⟩
      · exact .inr h
      · rw [hprocs, List.getElem?_modify_eq, hq] at hn
        obtain rfl := Option.some.inj hn
        exact .inl rfl
  cases (effect_step ht).procs with
  | same h =>
    rw [h] at hn
    exact hold hn rfl
  | fork p' k job e hs hpc h =>
    rw [h] at hn
    rcases getElem?_concat hn with hn | ⟨rfl, -⟩
    · exact hold hn rfl
    · rw [hpc]
      exact .inr rfl
  | run k job e m hpc h =>
    by_cases hm : m = n
    · subst hm
      rw [h, List.getElem?_modify_eq] at hn
      obtain ⟨q, -, rfl⟩ := Option.map_eq_some_iff.mp hn
      exact .inl rfl
    · rw [h, List.getElem?_modify_ne _ _ hm] at hn
      exact hold hn rfl
  | change m p' st hm hst h =>
    rw [h] at hn
    by_cases hmn : m = n
    · subst hmn
      rw [List.getElem?_set_self (List.getElem?_eq_some_iff.mp hm).1] at hn
      obtain rfl := Option.some.inj hn
      exact hold hm rfl
    · rw [List.getElem?_set_ne hmn] at hn
      exact hold hn rfl

/-! ## The death of the feeder -/

theorem finish_dead {w : Waited} {found : Row → St → St} (hfound : ∀ job s, (found job s).pc ≠ .dead)
    (hdead : (s.finish w found).pc = .dead) : s.children.lookup w.cid = none := by
  unfold St.finish at hdead
  split at hdead
  · rename_i hl
    exact hl
  · exact absurd hdead (hfound _ _)

/-- By itself the feeder dies only of `finish_job` without a job. -/
theorem tick_dead (ht : tick cfg s = some t) (hdead : t.pc = .dead) :
    ∃ c, s.pc.awaited = some c ∧ s.children.lookup c = none := by
  unfold tick at ht
  cases hpc : s.pc with
  | took only n w =>
    simp only [hpc, Option.some.injEq] at ht
    subst ht
    exact ⟨w.cid, rfl, finish_dead (fun _ _ h => by cases h) hdead⟩
  | tookMore only n w loopno =>
    simp only [hpc, Option.some.injEq] at ht
    subst ht
    exact ⟨w.cid, rfl, finish_dead (fun _ _ h => by cases h) hdead⟩
  | starting k =>
    simp only [hpc] at ht
    split at ht
    · obtain rfl := Option.some.inj ht
      cases k <;> cases hdead
    · cases ht
  | _ => grind [St.begin, St.commit]

/-- A feeder dies of a failed transaction, of `waitpid2`, or of a job that is not there. -/
theorem step_dead (ht : step cfg s l = some t) (hdead : t.pc = .dead) :
    s.pc = .dead ∨
      (t = s.rollback .dead ∧ (l = .fail false ∨ (s.childless = true ∧
        ((∃ only, s.pc = .waiting only) ∨
          ∃ only c loopno, s.pc = .looping only c loopno ∧ s.nothingRunning = false)))) ∨
      ∃ c, s.pc.awaited = some c ∧ s.children.lookup c = none := by
  cases l with
  | tick => exact .inr (.inr (tick_dead ht hdead))
  | fork pid now =>
    obtain ⟨k, job, -, -, -, rfl⟩ := step_fork ht
    cases hdead
  | report n f e =>
    obtain ⟨p, p', status, -, -, ⟨only, -, rfl⟩ | ⟨only, c, loopno, -, rfl⟩⟩ := step_report ht <;>
      cases hdead
  | nobody =>
    obtain ⟨only, c, loopno, -, rfl⟩ | ⟨rfl, hnone⟩ := step_nobody ht
    · cases only <;> cases hdead
    · exact .inr (.inl ⟨rfl, .inr hnone⟩)
  | start =>
    obtain ⟨-, rfl⟩ := step_start ht
    cases hdead
  | signal sig =>
    obtain ⟨-, hne, ⟨-, rfl⟩ | rfl⟩ := step_signal ht
    · cases hdead
    · exact absurd hdead hne
  | fail again =>
    obtain ⟨pc, hb, rfl⟩ := step_fail ht
    cases again with
    | false => exact .inr (.inl ⟨rfl, .inl rfl⟩)
    | true =>
      have hpc : pc = .dead := hdead
      have hblock := Pc.block_block hb
      rw [hpc] at hblock
      cases hblock
  | proc n st =>
    obtain ⟨p, -, -, rfl⟩ := step_proc ht
    exact .inl hdead
  | others jobs =>
    obtain ⟨-, -, rfl⟩ := step_others ht
    exact .inl hdead

/-- With children left, a process is left: `waitpid2` does not raise. -/
theorem Core.not_childless (h : Core cfg s) (hcur : s.pc.cur = none) (hrun : s.nothingRunning = false) :
    s.childless = false := by
  have hne : s.children.entries ≠ [] := by
    intro hnil
    rw [nothingRunning_iff.mpr hnil] at hrun
    cases hrun
  obtain ⟨⟨c, job⟩, hmem⟩ := List.exists_mem_of_ne_nil _ hne
  obtain ⟨n, p, hn, -, -, hlive, -⟩ := h.entry c job (AList.mem_lookup_iff.mpr hmem)
  have hst : p.state ≠ .reaped := hlive.resolve_right (by rw [hcur]; simp)
  rw [← Bool.not_eq_true]
  intro hall
  exact hst (by simpa using List.all_eq_true.mp hall p (List.mem_of_getElem? hn))

/-- Nothing is lost when the feeder dies. -/
theorem nothing_lost (hi : Inv cfg s) (hg : Reports s l)
    (hl : l = .fail false ∨ (s.childless = true ∧ ((∃ only, s.pc = .waiting only) ∨
      ∃ only c loopno, s.pc = .looping only c loopno ∧ s.nothingRunning = false))) :
    s.pending = [] ∧ s.pc.hand = none := by
  rcases hl with rfl | ⟨hall, ⟨only, hpc⟩ | ⟨only, c, loopno, hpc, hrun⟩⟩
  · exact hg.2
  · have h := hi.core (by rw [hpc]; simp)
    exact ⟨h.closed (h.work_none (by rw [hpc]; rfl)), by rw [hpc]; rfl⟩
  · have h := hi.core (by rw [hpc]; simp)
    rw [h.not_childless (by rw [hpc]; rfl) hrun] at hall
    cases hall

theorem told_each_dead (hk : Told s) (ht : step cfg s l = some t) (hs : s.pc = .dead) {n : Nat}
    {p : Proc} (hn : t.procs[n]? = some p) (hran : p.ran = true) :
    t.Logged n ∨ t.pc.hand = some n ∨ (p.state ≠ .reaped ∧ p.pid ∈ t.children) := by
  obtain ⟨m, q, st, hm, hmove, rfl⟩ | ⟨jobs, rfl⟩ := gone_step ht (.inr hs)
  · by_cases hmn : m = n
    · subst hmn
      have hn : (s.procs.set m { q with state := st })[m]? = some p := hn
      rw [List.getElem?_set_self (List.getElem?_eq_some_iff.mp hm).1] at hn
      obtain rfl := Option.some.inj hn
      rcases hk.each m q hm hran with h | h | ⟨-, h⟩
      · exact .inl h
      · exact .inr (.inl h)
      · exact .inr (.inr ⟨(ProcState.moves_not_reaped hmove).2, h⟩)
    · have hn : (s.procs.set m { q with state := st })[n]? = some p := hn
      rw [List.getElem?_set_ne hmn] at hn
      exact hk.each n p hn hran
  · exact hk.each n p hn hran

theorem told_each (hi : Inv cfg s) (hk : Told s) (hg : Reports s l) (ht : step cfg s l = some t) :
    ∀ n p, t.procs[n]? = some p → p.ran = true → t.Logged n ∨ t.pc.hand = some n ∨
      (p.state ≠ .reaped ∧ p.pid ∈ t.children) := by
  intro n p hn hran
  by_cases hdead : t.pc = .dead
  · rcases step_dead ht hdead with hs | ⟨rfl, hl⟩ | ⟨c, hc, hl⟩
    · exact told_each_dead hk ht hs hn hran
    · obtain ⟨hpending, hhand⟩ := nothing_lost hi hg hl
      rcases hk.each n p hn hran with ⟨u, hu, hun⟩ | h | h
      · rw [hpending] at hu
        exact .inl ⟨u, hu, hun⟩
      · rw [hhand] at h
        cases h
      · exact .inr (.inr h)
    · obtain ⟨job, hjob⟩ := mem_children.mp (hk.awaited c hc)
      rw [hl] at hjob
      cases hjob
  · exact ((inv_step hi hg.1 ht).core hdead).each hn hran

theorem told_step (hi : Inv cfg s) (hk : Told s) (hg : Reports s l) (ht : step cfg s l = some t) :
    Told t :=
  ⟨told_reaped hk ht, told_once hi hk ht, told_ran hi hk hg.1 ht, told_child hk hg ht,
    told_awaited hk ht, told_each hi hk hg ht, told_found hk ht⟩

theorem told_initial (h : Initial s) : Told s := by
  obtain ⟨-, -, hprocs, hpc, hmissing, hpending, hdone, -⟩ := h
  have hnoproc : ∀ (i : Nat) (p : Proc), s.procs[i]? ≠ some p := by
    intro i p
    rw [hprocs]
    simp
  refine ⟨?_, ?_, ?_, ?_, ?_, ?_, hmissing⟩
  · intro u hu
    rw [hpending, hdone] at hu
    exact absurd hu List.not_mem_nil
  · rw [hpending, hdone]
    exact List.nodup_nil
  · intro n p hn
    exact absurd hn (hnoproc n p)
  · intro n hn
    rw [hpc] at hn
    cases hn
  · intro c hc
    rw [hpc] at hc
    cases hc
  · intro n p hn
    exact absurd hn (hnoproc n p)

theorem told_reach (h : Reach Initial (step cfg) Reports s) : Inv cfg s ∧ Told s := by
  refine Reach.invariant (I := fun s => Inv cfg s ∧ Told s) ?_ ?_ h
  · intro s h0
    exact ⟨inv_initial h0, told_initial h0⟩
  · rintro s l t ⟨hi, hk⟩ hg ht
    exact ⟨inv_step hi hg.1 ht, told_step hi hk hg ht⟩

end Steps

/-- **Finished means terminated.**  In every run in which every status reported is of a process that
    has ended, and no update is lost with its transaction or a signal: each row is set to 'finished'
    after the process of its pid has terminated, once for each child reported, and `finish_job` has
    its job. -/
theorem finished_means_terminated (cfg : Config) (s : St) (h : Reach Initial (step cfg) Reports s) :
    Faithful s := by
  obtain ⟨-, hk⟩ := told_reach h
  have hfiled : Filed s := filed_reach (fun _ _ hg => hg.1) h
  refine ⟨?_, hk.once, hk.each, hk.found⟩
  intro u hu
  obtain ⟨p, hp, hjid, hpid⟩ := hfiled u hu
  obtain ⟨q, hq, hst⟩ := hk.reaped u hu
  obtain rfl := Option.some.inj (hp.symm.trans hq)
  exact ⟨p, hp, by simp [Proc.terminated, hst], hjid, hpid⟩

/-! ## Runs -/

/-- A queue with two pending jobs. -/
def twoPending : St where
  db := System.twoPending.jobs

theorem initial_twoPending : Initial twoPending := ⟨rfl, rfl, rfl, rfl, rfl, rfl, rfl, rfl⟩

/-- Both jobs are started, and the feeder waits. -/
def startTwo : List Label :=
  [.tick, .tick, .fork 100 "2005-07-02", .tick, .tick, .tick, .fork 101 "2005-07-02", .tick, .tick,
   .tick, .tick, .tick]

/-- The first stops, is reported and recorded; with nothing more to report, that is committed. -/
def stopFirst : List Label :=
  [.proc 0 (.stopped false), .report 0 "2005-07-03" "86400.0", .tick, .tick, .tick, .tick, .tick,
   .tick, .nobody]

/-- The first goes on and ends. -/
def endFirst : List Label :=
  [.proc 0 .running, .proc 0 (.ended (some 0)), .tick, .tick, .tick, .tick,
   .report 0 "2005-07-04" "172800.0", .tick]

/-- An update is committed, with the row finished, of a process that has not terminated. -/
def FinishedAlive (s : St) : Prop :=
  ∃ u ∈ s.done, FinishedIn s.db u.jid ∧ (s.procs[u.proc]?).any fun p => !p.terminated

instance (s : St) : Decidable (FinishedAlive s) := inferInstanceAs (Decidable (∃ u ∈ s.done, _))

theorem FinishedAlive.not_faithful {s : St} (h : FinishedAlive s) : ¬ Faithful s := by
  intro hf
  obtain ⟨u, hu, -, halive⟩ := h
  obtain ⟨p, hp, hterm, -⟩ := hf.terminated u (List.mem_append_right _ hu)
  rw [hp] at halive
  simp [hterm] at halive

set_option maxRecDepth 8000 in
/-- A child is stopped, as by SIGTSTP, and reported: its row is committed as finished while the
    process is there.  When it goes on and ends, `finish_job` is called without a job. -/
theorem stopped_child_is_finished :
    (∃ s, Reach Initial (step twoAtATime) (fun _ _ => True) s ∧ FinishedAlive s ∧ ¬ Faithful s) ∧
    (∃ s, Reach Initial (step twoAtATime) (fun _ _ => True) s ∧ s.missing = true ∧ ¬ Faithful s) := by
  constructor
  · have hrun : (exec (step twoAtATime) (startTwo ++ stopFirst) twoPending).any
        (fun s => decide (FinishedAlive s)) = true := by decide
    obtain ⟨s, hs, halive⟩ := exists_of_any hrun
    have halive : FinishedAlive s := of_decide_eq_true halive
    exact ⟨s, Reach.exec (Reach.init initial_twoPending) (along_true _ _) hs, halive,
      halive.not_faithful⟩
  · have hrun : (exec (step twoAtATime) (startTwo ++ stopFirst ++ endFirst) twoPending).any
        (fun s => s.missing) = true := by decide
    obtain ⟨s, hs, hmissing⟩ := exists_of_any hrun
    refine ⟨s, Reach.exec (Reach.init initial_twoPending) (along_true _ _) hs, hmissing, ?_⟩
    intro hf
    rw [hf.found] at hmissing
    cases hmissing

instance (s : St) (l : Label) : Decidable (Reports s l) :=
  match l with
  | .report n f e => inferInstanceAs (Decidable (Keeps s (.report n f e) ∧
      (s.procs[n]?).all (fun p => p.state != .stopped false) = true))
  | .fail false => inferInstanceAs (Decidable (Keeps s (.fail false) ∧ s.pending = [] ∧
      s.pc.hand = none))
  | .fail true => inferInstanceAs (Decidable (Keeps s (.fail true) ∧ True))
  | .tick => inferInstanceAs (Decidable (Keeps s .tick ∧ True))
  | .fork pid now => inferInstanceAs (Decidable (Keeps s (.fork pid now) ∧ True))
  | .nobody => inferInstanceAs (Decidable (Keeps s .nobody ∧ True))
  | .start => inferInstanceAs (Decidable (Keeps s .start ∧ True))
  | .signal sig => inferInstanceAs (Decidable (Keeps s (.signal sig) ∧ True))
  | .proc n st => inferInstanceAs (Decidable (Keeps s (.proc n st) ∧ True))
  | .others jobs => inferInstanceAs (Decidable (Keeps s (.others jobs) ∧ True))

set_option maxRecDepth 8000 in
/-- A child that ends is recorded. -/
theorem ended_child_is_finished :
    ∃ s, s.pending = [⟨0, 1, some "100"⟩] ∧ Faithful s := by
  have hrun : (exec (checked (step twoAtATime) fun s l => decide (Reports s l)) (startOne ++ reapOne)
      onePending).any (fun s => s.pending == [⟨0, 1, some "100"⟩]) = true := by decide
  obtain ⟨s, hs, hpending⟩ := exists_of_any hrun
  have hr : Reach Initial (step twoAtATime) Reports s :=
    (Reach.checked (fun _ _ _ hq => of_decide_eq_true hq) (Reach.init initial_onePending) hs).1
  exact ⟨s, eq_of_beq hpending, finished_means_terminated twoAtATime s hr⟩

end RubyQueue.Daemon
