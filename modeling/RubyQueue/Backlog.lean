/-
  The jobs table as a priority queue.

  What waits for the feeder of a host is one list, the BACKLOG of the host: the eligible rows it
  accepts, in the order of `getjob`.  The loop of `start_jobs` calls `getjob` and `jobisrunning` in
  turn; against the backlog this is taking jobs off its front.

  * `backlog_launch`         — a launch takes one job off the backlog of every host, and no other;
  * `startJobs_backlog`      — so `start_jobs` runs the first jobs of the backlog, in order, and stops
                               only when the feeder is busy or nothing is left;
  * `start_jobs_serves_backlog` — along the runs on a clock in which the stamps keep the order of the
                               instants, where the backlog is in the order of priority, instant of
                               submission and jid;
  * `submit_queues_behind`   — and a submission adds its jobs behind all of at least their priority.

  `order by` is an order only on rows that have a priority and a stamp; what is used of it is
  `OrderedBy`, on the rows of the backlog.
-/
import RubyQueue.Base.Sorted
import RubyQueue.Children
import RubyQueue.Oldest

namespace RubyQueue.Backlog

open RubyQueue.JobQueue RubyQueue.Qdb RubyQueue.Feeder RubyQueue.Sorted RubyQueue.Run

/-! ## The backlog -/

/-- The rows the feeder of `h` may be given. -/
def available (h : Hostname) (r : Row) : Bool := eligible r && acceptsHost h r

/-- They, in the order of `getjob`. -/
def backlog (h : Hostname) (db : Jobs) : List Row :=
  (db.rows.filter (available h)).insertionSort orderedBefore

theorem getjob_eq_head (h : Hostname) (db : Jobs) : getjob h db = (backlog h db).head? := rfl

theorem mem_backlog {h : Hostname} {db : Jobs} {r : Row} :
    r ∈ backlog h db ↔ r ∈ db ∧ available h r = true := by
  unfold backlog
  rw [List.mem_insertionSort, List.mem_filter]
  exact Iff.rfl

/-- No jid stands twice in the backlog. -/
theorem nodup_backlog (h : Hostname) (db : Jobs) : ((backlog h db).map Row.jid).Nodup := by
  have hrows : (db.rows.map Row.jid).Nodup :=
    (List.pairwise_map.mpr db.sorted).imp fun hlt => Nat.ne_of_lt hlt
  have hsub : ((db.rows.filter (available h)).map Row.jid).Nodup :=
    hrows.sublist (List.filter_sublist.map Row.jid)
  exact hsub.perm ((List.perm_insertionSort _ _).map Row.jid).symm

/-- A job that runs is available to nobody. -/
theorem available_running {h : Hostname} {r : Row} (hr : r.state = some "running") :
    available h r = false := by
  rw [available, Bool.and_eq_false_iff]
  exact Or.inl (Bool.eq_false_iff.mpr fun hel => eligible_not_running hel hr)

/-- Rows that an update makes unavailable are filtered out, and the others stay. -/
theorem filter_setWhere {p q : Row → Bool} {f : Row → Row} :
    ∀ {rows : List Row}, (∀ r ∈ rows, p r = true → q (setWhere p f r) = false) →
    (rows.map (setWhere p f)).filter q = (rows.filter q).filter fun r => !p r
  | [], _ => rfl
  | r :: rows, h => by
    have ih : (rows.map (setWhere p f)).filter q = (rows.filter q).filter fun r => !p r :=
      filter_setWhere fun s hs => h s (List.mem_cons_of_mem r hs)
    rw [List.map_cons, List.filter_cons, ih]
    cases hp : p r with
    | true =>
      rw [h r List.mem_cons_self hp, List.filter_cons]
      cases q r <;> simp [hp]
    | false =>
      have hsame : setWhere p f r = r := by simp [setWhere, hp]
      rw [hsame, List.filter_cons]
      cases q r <;> simp [hp]

/-- On the rows available to any host `order by` is the order of the keys. -/
def Keyed {κ : Type} [LinearOrder κ] (key : Row → κ) (db : Jobs) : Prop :=
  ∀ k, OrderedBy orderedBefore key (db.rows.filter (available k))

section Launch

variable {κ : Type} [LinearOrder κ] {key : Row → κ} {db : Jobs} {h : Hostname} {job : Row}

/-- The rows available after a launch. -/
theorem available_launch (e : Fork) (k : Hostname) :
    (jobisrunning (launched h e job) db).rows.filter (available k)
      = (db.rows.filter (available k)).filter fun r => !(r.jid == job.jid) := by
  refine filter_setWhere fun r _ hp => available_running ?_
  simp only [setWhere, hp, if_true]
  rfl

theorem Keyed.launch (hk : Keyed key db) (e : Fork) :
    Keyed key (jobisrunning (launched h e job) db) := by
  intro k
  rw [available_launch]
  exact (hk k).subset (List.filter_subset_self _)

/-- **A launch takes the job off every backlog, and nothing else.** -/
theorem backlog_launch (hk : Keyed key db) (e : Fork) (k : Hostname) :
    backlog k (jobisrunning (launched h e job) db)
      = (backlog k db).filter fun r => !(r.jid == job.jid) := by
  unfold backlog
  rw [available_launch, insertionSort_filter (hk k)]

/-- Off its own backlog it takes the front. -/
theorem backlog_tail (hk : Keyed key db) (e : Fork) {rest : List Row}
    (hb : backlog h db = job :: rest) :
    backlog h (jobisrunning (launched h e job) db) = rest := by
  have hnodup := nodup_backlog h db
  rw [hb, List.map_cons, List.nodup_cons] at hnodup
  rw [backlog_launch hk, hb, List.filter_cons]
  simp only [beq_self_eq_true, Bool.not_true, Bool.false_eq_true, if_false]
  refine List.filter_eq_self.mpr fun r hr => ?_
  have hne : r.jid ≠ job.jid := fun heq => hnodup.1 (heq ▸ List.mem_map_of_mem hr)
  simpa using hne

end Launch

/-! ## `start_jobs` -/

/-- The jids of the jobs a block has passed to `JobRunner#run`. -/
def ran (new : List Launch) : List Nat := new.map Launch.jid

/-- **`start_jobs` serves the backlog.**  A block that returns has run the first jobs of the backlog,
    in its order; they are gone from every host's backlog, and nothing else is; and it stops only when
    the feeder is busy or the backlog is empty.  Induction on the script. -/
theorem startJobs_backlog {κ : Type} [LinearOrder κ] {key : Row → κ} {h : Hostname} {maxFeed : Int} :
    ∀ {script : List Fork} {db db' : Jobs} {o o' : Own}, Keyed key db →
      startJobs h maxFeed script db o = ((db', o'), none) →
      ∃ new, o'.launches = o.launches ++ new ∧
        ran new = ((backlog h db).take new.length).map Row.jid ∧
        backlog h db' = (backlog h db).drop new.length ∧
        (∀ k, backlog k db' = (backlog k db).filter fun r => !(ran new).contains r.jid) ∧
        (busy maxFeed o' = true ∨ backlog h db' = []) := by
  intro script
  induction script with
  | nil =>
    intro db db' o o' hk hr
    rw [startJobs] at hr
    split at hr
    · rename_i hbusy
      cases hr
      exact ⟨[], by simp, by simp [ran], by simp, by simp [ran], Or.inl hbusy⟩
    split at hr
    · rename_i hnone
      cases hr
      rw [getjob_eq_head, List.head?_eq_none_iff] at hnone
      exact ⟨[], by simp, by simp [ran], by simp, by simp [ran], Or.inr hnone⟩
    · cases hr
  | cons e script ih =>
    intro db db' o o' hk hr
    rw [startJobs] at hr
    split at hr
    · rename_i hbusy
      cases hr
      exact ⟨[], by simp, by simp [ran], by simp, by simp [ran], Or.inl hbusy⟩
    split at hr
    · rename_i hnone
      cases hr
      rw [getjob_eq_head, List.head?_eq_none_iff] at hnone
      exact ⟨[], by simp, by simp [ran], by simp, by simp [ran], Or.inr hnone⟩
    rename_i job hjob
    simp only at hr
    rcases startJob_cases h job e db o with ⟨o₁, ho₁, -⟩ | hok
    · rw [ho₁] at hr
      cases hr
    · rw [hok] at hr
      -- one job off the front, then the rest of the block
      obtain ⟨rest, hrest⟩ : ∃ rest, backlog h db = job :: rest := by
        rw [getjob_eq_head] at hjob
        exact List.head?_eq_some_iff.mp hjob
      obtain ⟨new, hnew, htake, hdrop, hall, hstop⟩ := ih (hk.launch e) hr
      rw [backlog_tail hk e hrest] at htake hdrop
      refine ⟨⟨job.jid, e.pid, decide (e.pid ∈ o.children)⟩ :: new, ?_, ?_, ?_, fun k => ?_, hstop⟩
      · rw [hnew]
        show (o.launches ++ [_]) ++ new = _
        rw [List.append_assoc, List.singleton_append]
      · rw [hrest, List.length_cons, List.take_succ_cons, List.map_cons, ← htake]
        rfl
      · rw [hrest, List.length_cons, List.drop_succ_cons, hdrop]
      · rw [hall k, backlog_launch hk, List.filter_filter]
        refine List.filter_congr fun r _ => ?_
        simp only [ran, List.map_cons, List.contains_cons, Bool.not_or]
        exact Bool.and_comm _ _

/-! ## On a clock -/

/-- `r` is to be run before `r'`: it has the higher priority, or of the same priority it was submitted
    first, or it has the smaller jid of two of one submission. -/
def Precedes (since : Nat → Nat) (r r' : Row) : Prop :=
  ∃ p p', Oldest.priorityOf r = some p ∧ Oldest.priorityOf r' = some p' ∧
    (p' < p ∨ (p' = p ∧ (since r.jid < since r'.jid ∨
      (since r.jid = since r'.jid ∧ r.jid < r'.jid))))

/-- Rows that sort first precede: what the stamps compare as, the instants do. -/
theorem precedes_of_key {P : String → Prop} [Oldest.Priorities P] {s : Oldest.State}
    (hs : Oldest.Inv P s) {r r' : Row} (hr : r ∈ s.base.jobs) (hr' : r' ∈ s.base.jobs)
    (hne : r.jid ≠ r'.jid) (hkey : Oldest.sortKey s.since r ≤ Oldest.sortKey s.since r') :
    Precedes s.since r r' := by
  obtain ⟨-, p, -, -, hp⟩ := (hs.stamped r hr).priority.number
  obtain ⟨-, p', -, -, hp'⟩ := (hs.stamped r' hr').priority.number
  refine ⟨p, p', hp, hp', ?_⟩
  rw [Oldest.sortKey, Oldest.sortKey, Prod.Lex.toLex_le_toLex, Prod.Lex.toLex_le_toLex, hp, hp']
    at hkey
  simp only [Option.getD_some, OrderDual.toDual_lt_toDual, OrderDual.toDual_inj] at hkey
  rcases hkey with hlt | ⟨heq, hstamp⟩
  · exact Or.inl hlt
  refine Or.inr ⟨heq.symm, ?_⟩
  rcases Nat.lt_trichotomy (s.since r.jid) (s.since r'.jid) with hlt | hsame | hgt
  · exact Or.inl hlt
  · rw [hsame] at hstamp
    have hle := (hstamp.resolve_left (lt_irrefl _)).2
    exact Or.inr ⟨hsame, by omega⟩
  · -- a row stamped later does not sort first
    exfalso
    rcases hs.order r' hr' r hr hgt with hlt | ⟨hsame, hlt⟩
    · rcases hstamp with h | ⟨h, -⟩
      · exact lt_asymm hlt h
      · rw [h] at hlt
        exact lt_irrefl _ hlt
    · rcases hstamp with h | ⟨-, h⟩
      · rw [hsame] at h
        exact lt_irrefl _ h
      · omega

theorem keyed_of_inv {P : String → Prop} [Oldest.Priorities P] {s : Oldest.State}
    (hs : Oldest.Inv P s) :
    Keyed (Oldest.sortKey s.since) s.base.jobs := by
  have hmem : ∀ {k r}, r ∈ s.base.jobs.rows.filter (available k) → r ∈ s.base.jobs :=
    fun h => List.mem_of_mem_filter h
  refine fun k => ⟨fun r hr r' hr' => ?_, fun r hr r' hr' heq => ?_⟩
  · exact Oldest.orderedBefore_iff (hs.stamped r (hmem hr)) (hs.stamped r' (hmem hr'))
  · refine Jobs.eq_of_jid (hmem hr) (hmem hr') ?_
    simp only [Oldest.sortKey, toLex_inj, Prod.mk.injEq] at heq
    exact heq.2.2

/-- **A feeder serves its backlog in order.**  In every state that a run on a clock reaches — with
    integer priorities of 53 bits, plain values and instants that keep their place among the stamps —
    the backlog of every host is in the order of priority, instant of submission and jid; and a block
    of `start_jobs` that returns has run the first jobs of its host's backlog, one after the other,
    has taken these and no others off the backlogs of all hosts, and has stopped because the feeder
    is busy or because nothing is left. -/
theorem start_jobs_serves_backlog (sqlite : OtherSql) (s : Oldest.State)
    (hs : Reach Oldest.Fresh (Oldest.step sqlite) Oldest.Good s) (h : Hostname) (maxFeed : Int)
    (script : List Fork) (db' : Jobs) (o o' : Own)
    (hr : startJobs h maxFeed script s.base.jobs o = ((db', o'), none)) :
    (∀ k, (backlog k s.base.jobs).Pairwise (Precedes s.since)) ∧
    ∃ new, o'.launches = o.launches ++ new ∧
      ran new = ((backlog h s.base.jobs).take new.length).map Row.jid ∧
      backlog h db' = (backlog h s.base.jobs).drop new.length ∧
      (∀ k, backlog k db' = (backlog k s.base.jobs).filter fun r => !(ran new).contains r.jid) ∧
      (busy maxFeed o' = true ∨ backlog h db' = []) := by
  have hinv := Oldest.reach_inv hs
  have hk := keyed_of_inv hinv
  refine ⟨fun k => ?_, startJobs_backlog hk hr⟩
  have hsorted : (backlog k s.base.jobs).Pairwise fun r r' =>
      Oldest.sortKey s.since r ≤ Oldest.sortKey s.since r' := pairwise_insertionSort (hk k)
  have hnodup := List.pairwise_map.mp (nodup_backlog k s.base.jobs)
  refine (hsorted.and hnodup).imp_of_mem fun {r r'} hr hr' hpair => ?_
  exact precedes_of_key hinv (mem_backlog.mp hr).1 (mem_backlog.mp hr').1 hpair.2 hpair.1

/-- A child that is started without a fault. -/
def child : Fork := { pid := 100, now := "1970-01-01" }

set_option maxRecDepth 8000 in
/-- Of two jobs a feeder that may run one runs the one submitted first, and the other waits. -/
theorem serves_first_of_two :
    ∃ s r, exec (Oldest.step fun _ _ => .error "SQL error") (Oldest.twoJobs 1000005 2000000)
        { base := { jobs := Jobs.empty } } = some s ∧
      startJobs node1 1 [child] s.base.jobs {} = (r, none) ∧
      (backlog node1 s.base.jobs).map Row.jid = [1, 2] ∧
      ran r.2.launches = [1] ∧ (backlog node1 r.1).map Row.jid = [2] := by
  obtain ⟨s, hs, hobs⟩ : ∃ s, exec (Oldest.step fun _ _ => .error "SQL error")
        (Oldest.twoJobs 1000005 2000000) { base := { jobs := Jobs.empty } } = some s ∧
      decide ((backlog node1 s.base.jobs).map Row.jid = [1, 2] ∧
        ∀ r ∈ s.base.jobs.rows, r.command ≠ none) = true :=
    exists_of_any (by decide)
  obtain ⟨hjids, hcommand⟩ := of_decide_eq_true hobs
  have hgood := Oldest.twoJobs_orderly (P := Oldest.IsSmall) (t := 1000005) (u := 2000000)
    (by decide) (by decide) (by decide) (by decide)
  obtain ⟨job, hjob⟩ : ∃ job, getjob node1 s.base.jobs = some job := by
    rw [getjob_eq_head]
    cases hb : backlog node1 s.base.jobs with
    | nil =>
      rw [hb] at hjids
      cases hjids
    | cons job _ => exact ⟨job, rfl⟩
  have hstart : startJob node1 job child s.base.jobs {} =
      ((jobisrunning (launched node1 child job) s.base.jobs,
        Own.launch {} node1 child job), none) := by
    have hc : (prepared node1 child.now job).command ≠ none := hcommand job (getjob_some hjob).1
    have hrun : ¬ (child.fault = some .run ∨ (prepared node1 child.now job).command = none) := by
      rintro (hf | hn)
      · cases hf
      · exact hc hn
    unfold startJob
    rw [if_neg (by decide), if_neg hrun, if_neg (by decide)]
    rfl
  have hr : startJobs node1 1 [child] s.base.jobs {} =
      ((jobisrunning (launched node1 child job) s.base.jobs, Own.launch {} node1 child job),
        none) := by
    rw [startJobs, if_neg (by decide), hjob]
    simp only [hstart]
    rw [startJobs, if_pos (by rfl)]
  obtain ⟨-, new, hnew, htake, hdrop, -, -⟩ := start_jobs_serves_backlog _ s
    (Reach.exec (Reach.init rfl) hgood hs) node1 1 _ _ _ _ hr
  obtain rfl : _ = new := by simpa using hnew
  refine ⟨s, _, hs, hr, hjids, ?_, ?_⟩
  · rw [htake, List.map_take, hjids]
    rfl
  · rw [hdrop, List.map_drop, hjids]
    rfl

/-- What a submission at the instant `t` leaves, and what it adds. -/
theorem submitted_step {sqlite : OtherSql} {s s' : Oldest.State} {t : Nat} {host : String}
    {jobs : List JobHash}
    (h : Oldest.step sqlite s (.stamped t host (.submit jobs)) = some s') :
    s.clock < t ∧ s'.base.jobs.rows
        = s.base.jobs.rows ++ newRows (Util.timestamp t) host (s.base.jobs.maxJid + 1) jobs ∧
      ∀ jid, s'.since jid = if s.base.jobs.maxJid < jid then t else s.since jid := by
  simp only [Oldest.step] at h
  split at h
  swap
  · cases h
  rename_i hclock
  obtain ⟨base, hb, rfl⟩ := Option.map_eq_some_iff.mp h
  refine ⟨hclock, ?_, fun jid => by simp [Oldest.Stamped.writes]⟩
  simp only [Lifecycle.step, Oldest.Stamped.client, Client.exec] at hb
  split at hb
  · rename_i db' hok
    cases hb
    exact (submit_ok hok).1
  · cases hb

/-- **Nobody is overtaken by a later job of no higher priority.**  Along the same runs on a clock: a
    submission of this kind leaves the backlog of every host as it was, but for the jobs it adds; and
    each of these stands behind every job of the backlog that has at least its priority. -/
theorem submit_queues_behind (sqlite : OtherSql) (s s' : Oldest.State)
    (hs : Reach Oldest.Fresh (Oldest.step sqlite) Oldest.Good s) (t : Nat) (host : String)
    (jobs : List JobHash) (hg : Oldest.Good s (.stamped t host (.submit jobs)))
    (hst : Oldest.step sqlite s (.stamped t host (.submit jobs)) = some s') (k : Hostname) :
    backlog k s.base.jobs
        = (backlog k s'.base.jobs).filter (fun r => decide (r.jid ≤ s.base.jobs.maxJid)) ∧
    ∀ r ∈ backlog k s.base.jobs, ∀ r' ∈ backlog k s'.base.jobs, s.base.jobs.maxJid < r'.jid →
      ∀ p p', Oldest.priorityOf r = some p → Oldest.priorityOf r' = some p' → p' ≤ p →
        [r, r'].Sublist (backlog k s'.base.jobs) := by
  have hinv := Oldest.reach_inv hs
  have hinv' := Oldest.reach_inv (hs.step hg hst)
  have hk := keyed_of_inv hinv' k
  obtain ⟨hclock, hrows, hsince⟩ := submitted_step hst
  have hold : ∀ r ∈ s.base.jobs.rows, r.jid ≤ s.base.jobs.maxJid := fun r => Jobs.jid_le_maxJid
  have hsame : backlog k s.base.jobs
      = (backlog k s'.base.jobs).filter (fun r => decide (r.jid ≤ s.base.jobs.maxJid)) := by
    have hrest : s'.base.jobs.rows.filter (fun r => decide (r.jid ≤ s.base.jobs.maxJid))
        = s.base.jobs.rows := by
      rw [hrows, List.filter_append, List.filter_eq_self.mpr fun r hr => decide_eq_true (hold r hr)]
      refine (congrArg _ (List.filter_eq_nil_iff.mpr fun r hr => ?_)).trans (List.append_nil _)
      have := (mem_newRows hr).1
      simp only [decide_eq_true_eq]
      omega
    unfold backlog
    rw [← insertionSort_filter hk, List.filter_comm, hrest]
  refine ⟨hsame, fun r hr r' hr' hnew p p' hp hp' hle => ?_⟩
  have hr₀ := (mem_backlog.mp hr).1
  have hmem : r ∈ backlog k s'.base.jobs := by
    rw [hsame] at hr
    exact List.mem_of_mem_filter hr
  obtain ⟨hr₁, ha₁⟩ := mem_backlog.mp hmem
  obtain ⟨hr₂, ha₂⟩ := mem_backlog.mp hr'
  refine pair_sublist hk (List.mem_filter.mpr ⟨hr₁, ha₁⟩) (List.mem_filter.mpr ⟨hr₂, ha₂⟩) ?_
  -- the new job was submitted later
  have hjid := hold r hr₀
  have hlt : s'.since r.jid < s'.since r'.jid := by
    rw [hsince, hsince, if_neg (by omega), if_pos hnew]
    have := (hinv.past r hr₀).1
    omega
  rw [Oldest.sortKey, Oldest.sortKey, Prod.Lex.toLex_lt_toLex, Prod.Lex.toLex_lt_toLex, hp, hp']
  simp only [Option.getD_some, OrderDual.toDual_lt_toDual, OrderDual.toDual_inj]
  rcases lt_or_eq_of_le hle with hlt' | rfl
  · exact Or.inl hlt'
  · exact Or.inr ⟨rfl, hinv'.order r hr₁ r' hr₂ hlt⟩

set_option maxRecDepth 8000 in
/-- Of two submissions of the same priority the second goes behind the first. -/
theorem second_behind_first :
    ∃ s s', Oldest.step (fun _ _ => .error "SQL error") { base := { jobs := Jobs.empty } }
        (.stamped 1000005 "node1" (.submit [{ command := some "first" }])) = some s ∧
      Oldest.step (fun _ _ => .error "SQL error") s
        (.stamped 2000000 "node1" (.submit [{ command := some "second" }])) = some s' ∧
      backlog node1 s.base.jobs
        = (backlog node1 s'.base.jobs).filter (fun r => decide (r.jid ≤ s.base.jobs.maxJid)) ∧
      ∃ r ∈ backlog node1 s.base.jobs, ∃ r' ∈ backlog node1 s'.base.jobs,
        [r, r'].Sublist (backlog node1 s'.base.jobs) := by
  obtain ⟨s', hs', hobs⟩ : ∃ s', exec (Oldest.step fun _ _ => .error "SQL error")
        (Oldest.twoJobs 1000005 2000000) { base := { jobs := Jobs.empty } } = some s' ∧
      decide (∃ r ∈ s'.base.jobs.rows, ∃ r' ∈ s'.base.jobs.rows, r.jid = 1 ∧ r'.jid = 2 ∧
        available node1 r = true ∧ available node1 r' = true ∧
        Oldest.priorityOf r = some 0 ∧ Oldest.priorityOf r' = some 0) = true :=
    exists_of_any (by decide)
  obtain ⟨r, hr, r', hr', hj, hj', ha, ha', hp, hp'⟩ := of_decide_eq_true hobs
  obtain ⟨s, hs, hst⟩ := Option.bind_eq_some_iff.mp hs'
  obtain ⟨s'', hst₂, hend⟩ := Option.bind_eq_some_iff.mp hst
  obtain rfl : s'' = s' := by simpa [exec] using hend
  obtain ⟨hg, hrest⟩ := Oldest.twoJobs_orderly (P := Oldest.IsSmall) (t := 1000005) (u := 2000000)
    (by decide) (by decide) (by decide) (by decide)
  have hmax : s.base.jobs.maxJid = 1 := by
    obtain ⟨-, hrows, -⟩ := submitted_step hs
    simp [Jobs.maxJid, hrows, newRows, Jobs.empty]
  obtain ⟨hsame, hbehind⟩ := submit_queues_behind _ s s'' (Reach.step (Reach.init rfl) hg hs) 2000000
    "node1" _ (hrest s hs).1 hst₂ node1
  have hb : r ∈ backlog node1 s.base.jobs := by
    rw [hsame, List.mem_filter, hmax, hj]
    exact ⟨mem_backlog.mpr ⟨hr, ha⟩, by decide⟩
  exact ⟨s, s'', hs, hst₂, hsame, r, hb, r', mem_backlog.mpr ⟨hr', ha'⟩,
    hbehind r hb r' (mem_backlog.mpr ⟨hr', ha'⟩) (by rw [hmax, hj']; decide) 0 0 hp hp' (le_refl 0)⟩

end RubyQueue.Backlog
