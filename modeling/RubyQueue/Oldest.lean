/-
  "Oldest highest priority": the order in which `getjob` hands out jobs.

  `getjob` sorts by priority, time of submission and jid.  Priorities are integers and compare as
  such — to SQLite as doubles, so as integers as long as they have 53 bits (`compare_priorities`);
  times are compared as the texts `Util.timestamp` makes of them, so the order is the order of the
  instants only as far as the stamps keep it (`timestamp_lt_iff`).

  The system here is the one of the life cycle on a clock: `submit`, `resubmit` and `touch` are made
  at strictly increasing instants and stamp the rows they write; `since` remembers the instant
  each row was stamped at, which the table does not.  Everything else — updates, deletions, feeders
  starting and reaping jobs, crashing and coming back — may happen in between.

  * `Inv`                  — rows carry the stamp of their instant, and older rows sort first;
  * `getjob_oldest_first`  — hence what `getjob` returns is the oldest of the highest priority.
-/
import Mathlib.Data.Prod.Lex
import RubyQueue.Lifecycle
import RubyQueue.Timestamp

namespace RubyQueue.Oldest

open RubyQueue.Sqlite RubyQueue.JobQueue RubyQueue.Feeder RubyQueue.Lifecycle RubyQueue.Run
open RubyQueue.Util RubyQueue.Raise

/-! ## The system on a clock -/

/-- The queue and its feeders, the last instant a job was submitted at, and for each jid the instant
    its row was stamped at. -/
structure State where
  base : Lifecycle.State
  clock : Nat := 0
  since : Nat → Nat := fun _ => 0

/-- The commands that stamp rows with the time. -/
inductive Stamped
  | submit (jobs : List JobHash)
  | resubmit (opts : Overrides) (whats : List ListArg)
  | touch (jobs : List JobHash)

/-- One operation: a stamping command at an instant, or any other one. -/
inductive Label
  | stamped (at_ : Nat) (host : String) (c : Stamped)
  | other (op : Op)

/-- `now = Util::timestamp Time::now`, and the command with it. -/
def Stamped.client (t : Nat) (host : String) : Stamped → Client
  | .submit jobs => .submit (timestamp t) host jobs
  | .resubmit opts whats => .resubmit (timestamp t) host opts whats
  | .touch jobs => .touch (timestamp t) host jobs

/-- Does the command stamp the row of `jid`?  New rows get jids above all others. -/
def Stamped.writes : Stamped → Jobs → Nat → Bool
  | .submit _, db, jid => decide (db.maxJid < jid)
  | .touch _, db, jid => decide (db.maxJid < jid)
  | .resubmit _ whats, db, jid =>
    (list whats db).any fun job => job.jid == jid && !saysRunning job

/-- The operation stamps no row. -/
def Unstamped : Op → Bool
  | .client (.submit _ _ _) => false
  | .client (.resubmit _ _ _ _) => false
  | .client (.touch _ _ _) => false
  | _ => true

/-- One operation that commits. -/
def step (sqlite : OtherSql) (s : State) : Label → Option State
  | .stamped t host c =>
    if s.clock < t then
      (Lifecycle.step sqlite s.base (.client (c.client t host))).map fun base =>
        { base := base, clock := t,
          since := fun jid => if c.writes s.base.jobs jid then t else s.since jid }
    else none
  | .other op =>
    if Unstamped op then
      (Lifecycle.step sqlite s.base op).map fun base => { s with base := base }
    else none

/-- A freshly created queue. -/
def Fresh (s : State) : Prop := s = { base := { jobs := Jobs.empty } }

/-! ## Which runs -/

/-- An integer, as a priority is written. -/
def IsInteger (v : String) : Prop := (integerValue v).isSome = true

/-- An integer of 53 bits: a double holds it as it is. -/
def IsSmall (v : String) : Prop := ∃ n, integerValue v = some n ∧ |n| < 2 ^ 53

/-- What may be asked of the priorities that are given: they are integers, and 0 is among them. -/
class Priorities (P : String → Prop) : Prop where
  zero : P "0"
  integer : ∀ {v}, P v → IsInteger v

instance : Priorities IsInteger := ⟨rfl, id⟩

instance : Priorities IsSmall := by
  refine ⟨⟨0, rfl, by norm_num⟩, ?_⟩
  rintro v ⟨n, hn, -⟩
  exact Option.isSome_iff_exists.mpr ⟨n, hn⟩

/-- The priorities given are such. -/
def Stamped.Gives (P : String → Prop) : Stamped → Prop
  | .submit jobs => ∀ job ∈ jobs, ∀ p ∈ job.priority, P p
  | .resubmit opts _ => ∀ p ∈ opts.priority, ∀ v ∈ p, P v
  | .touch jobs => ∀ job ∈ jobs, ∀ p ∈ job.priority, P p

/-- An update gives such priorities only, and takes none away. -/
def GivesOp (P : String → Prop) : Op → Prop
  | .client (.update kvs _) => ∀ kv ∈ kvs, kv.1 = "priority" → ∃ v, kv.2 = some v ∧ P v
  | _ => True

/-- The instant keeps its place among the stamps in the queue: its year has four digits, and what
    its last six digits show is not below what those of an earlier instant of the same second
    show — nor equal to it, when the command stamps an old row. -/
def KeepsOrder (s : State) (t : Nat) (c : Stamped) : Prop :=
  FourDigits t ∧ ∀ r ∈ s.base.jobs, s.since r.jid / 1000000 = t / 1000000 →
    shown (s.since r.jid % 1000000) < shown (t % 1000000) ∨
    (shown (s.since r.jid % 1000000) = shown (t % 1000000) ∧
      ∀ opts whats, c ≠ .resubmit opts whats)

/-- Plain values, such priorities, and instants that keep their place. -/
def Orderly (P : String → Prop) (s : State) : Label → Prop
  | .stamped t host c => PlainOp (.client (c.client t host)) ∧ c.Gives P ∧ KeepsOrder s t c
  | .other op => PlainOp op ∧ GivesOp P op

/-- With priorities of 53 bits. -/
def Good : State → Label → Prop := Orderly IsSmall

variable {P : String → Prop}

/-! ## Rows -/

/-- The priority as a number. -/
def priorityOf (r : Row) : Option Int := r.priority.bind integerValue

/-- The row has such a priority. -/
def HasPriority (P : String → Prop) (r : Row) : Prop := ∃ v, r.priority = some v ∧ P v

/-- The row has a priority, and the stamp of the instant `t`. -/
structure StampedAt (P : String → Prop) (t : Nat) (r : Row) : Prop where
  submitted : r.submitted = some (timestamp t)
  priority : HasPriority P r

theorem HasPriority.number [Priorities P] {r : Row} (h : HasPriority P r) :
    ∃ v n, r.priority = some v ∧ integerValue v = some n ∧ priorityOf r = some n := by
  obtain ⟨v, hv, hp⟩ := h
  obtain ⟨n, hn⟩ := Option.isSome_iff_exists.mp (Priorities.integer hp)
  refine ⟨v, n, hv, hn, ?_⟩
  rw [priorityOf, hv]
  exact hn

/-- The stamp and the jid of `r` sort before those of `r'`. -/
def Before (since : Nat → Nat) (r r' : Row) : Prop :=
  timestamp (since r.jid) < timestamp (since r'.jid) ∨
  (timestamp (since r.jid) = timestamp (since r'.jid) ∧ r.jid < r'.jid)

/-- Rows carry the stamps of their instants, and older rows sort first. -/
structure Inv (P : String → Prop) (s : State) : Prop where
  stamped : ∀ r ∈ s.base.jobs, StampedAt P (s.since r.jid) r
  past : ∀ r ∈ s.base.jobs, s.since r.jid ≤ s.clock ∧ FourDigits (s.since r.jid)
  order : ∀ r ∈ s.base.jobs, ∀ r' ∈ s.base.jobs, s.since r.jid < s.since r'.jid →
    Before s.since r r'

/-! ## What an operation leaves of a stamp -/

/-- The stamp is the same, and the priority is the same or such a one. -/
def Kept (P : String → Prop) (r r' : Row) : Prop :=
  r'.submitted = r.submitted ∧ (r'.priority = r.priority ∨ HasPriority P r')

theorem Kept.refl (r : Row) : Kept P r r := ⟨rfl, Or.inl rfl⟩

theorem Kept.stampedAt {r r' : Row} {t : Nat} (k : Kept P r r') (h : StampedAt P t r) :
    StampedAt P t r' := by
  refine ⟨k.1.trans h.submitted, ?_⟩
  rcases k.2 with hp | hp
  · obtain ⟨v, hv, hint⟩ := h.priority
    exact ⟨v, hp.trans hv, hint⟩
  · exact hp

theorem Kept.trans {r s t : Row} (h : Kept P r s) (k : Kept P s t) : Kept P r t := by
  refine ⟨k.1.trans h.1, ?_⟩
  rcases k.2 with hp | hp
  · rcases h.2 with hq | hq
    · exact Or.inl (hp.trans hq)
    · obtain ⟨v, hv, hint⟩ := hq
      exact Or.inr ⟨v, hp.trans hv, hint⟩
  · exact Or.inr hp

/-- Every row comes from one of the same jid along `Kept`. -/
def AllKept (P : String → Prop) (db db' : Jobs) : Prop :=
  ∀ r' ∈ db', ∃ r ∈ db, r.jid = r'.jid ∧ Kept P r r'

/-- A column that `update` may set comes from the pair of that name. -/
theorem validPair_priority {kv : String × Option String} {v : Option String}
    (h : validPair kv = .ok (.priority, v)) : kv = ("priority", v) := by
  obtain ⟨name, value⟩ := kv
  have hname : ∀ c, Column.ofName name = some c → c.name = name := by
    intro c hc
    exact beq_iff_eq.mp (List.find?_some (p := fun c : Column => c.name == name) hc)
  unfold validPair at h
  split at h
  · rename_i w _ _
    unfold mungeState at h
    split at h
    · cases h
    · split at h <;> cases h
  · rename_i hc
    cases h
    rw [← hname _ hc]
    rfl
  all_goals cases h

/-- Assignments that give integers to `priority` and leave `submitted` alone. -/
theorem assign_kept {as : List (Column × Option String)} (hup : Updates as)
    (hint : ∀ v, (Column.priority, v) ∈ as → ∃ p, v = some p ∧ P p) :
    ∀ r : Row, Kept P r (r.assign as) := by
  induction as with
  | nil => exact fun r => Kept.refl r
  | cons cv as ih =>
    intro r
    obtain ⟨c, v⟩ := cv
    have hset : Kept P r (r.set v c) := by
      rcases hup (c, v) List.mem_cons_self with hc | hc | hc
      · simp only [List.mem_cons, List.not_mem_nil, or_false] at hc
        rcases hc with rfl | rfl | rfl | rfl | rfl
        · obtain ⟨p, rfl, hp⟩ := hint v List.mem_cons_self
          exact ⟨rfl, Or.inr ⟨p, rfl, hp⟩⟩
        all_goals exact ⟨rfl, Or.inl rfl⟩
      · cases hc; exact ⟨rfl, Or.inl rfl⟩
      · cases hc; exact ⟨rfl, Or.inl rfl⟩
    exact hset.trans (ih (fun cv hcv => hup cv (List.mem_cons_of_mem _ hcv))
      (fun v hv => hint v (List.mem_cons_of_mem _ hv)) (r.set v c))

/-- An update of integers keeps stamps. -/
theorem update_kept {sqlite : OtherSql} {kvs : List (String × Option String)}
    {targets : List Target} {db db' : Jobs} (hq : QuoteFree kvs)
    (hint : ∀ kv ∈ kvs, kv.1 = "priority" → ∃ v, kv.2 = some v ∧ P v)
    (h : update sqlite kvs targets db = .ok db') : AllKept P db db' := by
  obtain ⟨as, jids, hv, rfl⟩ := update_assigns hq h
  have hpri : ∀ v, (Column.priority, v) ∈ as → ∃ p, v = some p ∧ P p := by
    intro v hmem
    obtain ⟨kv, hkv, hok⟩ := exists_of_mapM_ok hv hmem
    obtain rfl := validPair_priority hok
    exact hint _ (List.mem_of_mem_filter hkv) rfl
  have hkept := assign_kept (validPairs_updates hv).1 hpri
  intro r' hr'
  obtain ⟨r, hr, rfl⟩ := Jobs.mem_update.mp hr'
  refine ⟨r, hr, (setWhere_jid _ _ r).symm, ?_⟩
  unfold setWhere
  split
  · exact hkept r
  · exact Kept.refl r

/-- An update by jid that assigns neither priority nor stamp. -/
theorem allKept_update_jid {db : Jobs} {jid : Nat} {f : Row → Row}
    (hf : ∀ r, (f r).submitted = r.submitted ∧ (f r).priority = r.priority) :
    AllKept P db (db.update (fun r => r.jid == jid) f) := by
  intro r' hr'
  rcases Jobs.mem_update_jid.mp hr' with ⟨hr, -⟩ | ⟨r, hr, -, rfl⟩
  · exact ⟨r', hr, rfl, Kept.refl r'⟩
  · exact ⟨r, hr, rfl, (hf r).1, Or.inl (hf r).2⟩

/-- **Operations that stamp nothing** keep every stamp, and integer priorities. -/
theorem other_kept {sqlite : OtherSql} {s t : Lifecycle.State} {op : Op} (hun : Unstamped op = true)
    (hp : PlainOp op) (hint : GivesOp P op) (h : Lifecycle.step sqlite s op = some t) :
    AllKept P s.jobs t.jobs := by
  have hdelete : ∀ {whats : List String} {db : Jobs}, (∀ what ∈ whats, PlainArg what) →
      delete sqlite false whats s.jobs = .ok db → AllKept P s.jobs db := by
    intro whats db hplain hok r' hr'
    exact ⟨r', (delete_ok hplain hok).1 r' hr', rfl, Kept.refl r'⟩
  cases op with
  | client c =>
    simp only [Lifecycle.step] at h
    split at h
    swap
    · cases h
    rename_i jobs hc
    cases h
    cases c with
    | submit now host jobs => cases hun
    | resubmit now host opts whats => cases hun
    | touch now host jobs => cases hun
    | update kvs targets => exact update_kept hp hint hc
    | delete whats => exact hdelete hp hc
    | rotate => exact hdelete plainArg_rotate hc
  | startJob host e =>
    simp only [Lifecycle.step] at h
    split at h
    swap
    · cases h
    rename_i o job ho hjob
    rcases startJob_cases host job e s.jobs o with ⟨o', hraise, -⟩ | hok
    · rw [hraise] at h
      cases h
    · rw [hok] at h
      cases h
      exact allKept_update_jid fun r => ⟨rfl, rfl⟩
  | jobIsDone host w =>
    simp only [Lifecycle.step] at h
    split at h
    · cases h
    split at h
    · cases h
    cases h
    exact allKept_update_jid fun r => ⟨rfl, rfl⟩
  | crash host =>
    cases h
    exact fun r hr => ⟨r, hr, rfl, Kept.refl r⟩
  | restart host started =>
    simp only [Lifecycle.step] at h
    split at h
    · cases h
    cases h
    intro r' hr'
    rcases mem_fillMorgue.mp hr' with ⟨hr, -⟩ | ⟨r, hr, rfl⟩
    · exact ⟨r', hr, rfl, Kept.refl r'⟩
    · exact ⟨r, (mem_getdeadjobs hr).1, rfl, rfl, Or.inl rfl⟩

/-! ## What a stamping command does -/

variable [Priorities P]

/-- An integer has no quote, and comes back from the table as it is. -/
theorem storedText_integer {v : String} (h : P v) : storedText (some v) = some v := by
  obtain ⟨n, hn⟩ := Option.isSome_iff_exists.mp (Priorities.integer h)
  unfold integerValue at hn
  dsimp only at hn
  split at hn
  swap
  · cases hn
  rename_i hz
  replace hz := integerValue_digits hz
  have hquote : '\'' ∉ v.toList := by
    intro hq
    have hdrop : '\'' ∈ dropSign v.toList := by
      unfold dropSign
      split
      · rename_i heq
        rw [heq] at hq
        rcases List.mem_cons.mp hq with hq | hq
        · exact absurd hq (by decide)
        · exact hq
      · rename_i heq
        rw [heq] at hq
        rcases List.mem_cons.mp hq with hq | hq
        · exact absurd hq (by decide)
        · exact hq
      · exact hq
    exact absurd (hz.2 _ hdrop) (by decide)
  have hne : v ≠ "" := by
    rintro rfl
    exact hz.1 rfl
  refine (storedText_eq_self_iff hne).mpr fun hadj => ?_
  exact hquote (hadj.subset List.mem_cons_self)

theorem storedText_timestamp (t : Nat) :
    storedText (some (timestamp t)) = some (timestamp t) := by
  have hne : timestamp t ≠ "" := by
    intro h
    unfold timestamp secondText at h
    simp at h
  refine (storedText_eq_self_iff hne).mpr fun hadj => ?_
  exact quote_not_mem_timestamp t (hadj.subset List.mem_cons_self)

/-- A priority as `submit` and `resubmit` write it: 0 when there is none. -/
theorem written_priority {p : Option String} (h : ∀ v ∈ p, P v) :
    ∃ v, storedText (some (p.getD "0")) = some v ∧ P v := by
  cases p with
  | none => exact ⟨"0", by decide, Priorities.zero⟩
  | some v => exact ⟨v, storedText_integer (h v rfl), h v rfl⟩

/-- The rows a batch adds are stamped. -/
theorem newRows_stamped {t : Nat} {host : String} : ∀ {jobs : List JobHash} {jid : Nat} {r : Row},
    (∀ job ∈ jobs, ∀ p ∈ job.priority, P p) → r ∈ newRows (timestamp t) host jid jobs →
    StampedAt P t r
  | [], _, _, _, h => by cases h
  | job :: jobs, jid, r, hint, h => by
    rcases List.mem_cons.mp h with rfl | h
    · exact ⟨storedText_timestamp t, written_priority (hint job List.mem_cons_self)⟩
    · exact newRows_stamped (fun j hj => hint j (List.mem_cons_of_mem job hj)) h

/-- What a stamping command at `t` leaves: rows it writes are stamped with `t`, the others keep
    their stamps. -/
def Stamps (P : String → Prop) (t : Nat) (writes : Nat → Bool) (db db' : Jobs) : Prop :=
  ∀ r' ∈ db', (writes r'.jid = true ∧ StampedAt P t r') ∨
    (writes r'.jid = false ∧ ∃ r ∈ db, r.jid = r'.jid ∧ Kept P r r')

theorem submit_stamps {t : Nat} {host : String} {jobs : List JobHash} {db db' : Jobs}
    (hint : ∀ job ∈ jobs, ∀ p ∈ job.priority, P p)
    (h : submit (timestamp t) host jobs db = .ok db') :
    Stamps P t (fun jid => decide (db.maxJid < jid)) db db' := by
  intro r' hr'
  rw [Jobs.mem_def, (submit_ok h).1, List.mem_append] at hr'
  rcases hr' with hr | hr
  · right
    have hle := Jobs.jid_le_maxJid hr
    exact ⟨by simpa using hle, r', hr, rfl, Kept.refl r'⟩
  · left
    have hle := (mem_newRows hr).1
    exact ⟨by simp; omega, newRows_stamped hint hr⟩

omit [Priorities P] in
/-- A row with a priority has an integer there. -/
theorem StampedAt.given {t : Nat} {r : Row} (h : StampedAt P t r) :
    ∀ v ∈ r.priority, P v := by
  intro v hv
  obtain ⟨v', hv', hint⟩ := h.priority
  rw [Option.mem_def, hv', Option.some.injEq] at hv
  exact hv ▸ hint

/-- One row of `resubmit`. -/
theorem resubmit_stamped {t : Nat} {host : String} {opts : Overrides} {job : Row}
    (hopts : ∀ p ∈ opts.priority, ∀ v ∈ p, P v) (hjob : ∀ v ∈ job.priority, P v)
    (r : Row) : StampedAt P t { resubmittedRow (timestamp t) host (opts.apply job) r with
      jid := r.jid } := by
  refine ⟨storedText_timestamp t, written_priority ?_⟩
  show ∀ v ∈ opts.priority.getD job.priority, P v
  cases hp : opts.priority with
  | none => exact hjob
  | some p => exact hopts p hp

/-- The loop of `ReSubmitter#resubmit`.  Induction on the jobs it was given. -/
theorem resubmitLoop_stamps {t : Nat} {host : String} {opts : Overrides}
    (hopts : ∀ p ∈ opts.priority, ∀ v ∈ p, P v) : ∀ {l : List Row} {db db' : Jobs},
    (∀ job ∈ l, ∀ v ∈ job.priority, P v) →
    l.foldlM (fun db job => if saysRunning job then .ok db
      else resubmit (timestamp t) host (opts.apply job) db) db = .ok db' →
    Stamps P t (fun jid => l.any fun job => job.jid == jid && !saysRunning job) db db'
  | [], db, db', _, h => by
    cases h
    exact fun r' hr' => Or.inr ⟨rfl, r', hr', rfl, Kept.refl r'⟩
  | job :: l, db, db', hint, h => by
    have hrest : ∀ j ∈ l, ∀ v ∈ j.priority, P v :=
      fun j hj => hint j (List.mem_cons_of_mem job hj)
    rw [List.foldlM_cons] at h
    by_cases hrun : saysRunning job = true
    · -- a running job is skipped
      rw [if_pos hrun] at h
      intro r' hr'
      simpa [hrun] using resubmitLoop_stamps hopts hrest h r' hr'
    rw [if_neg hrun, resubmit_eq] at h
    split at h
    swap
    · cases h
    intro r' hr'
    rcases resubmitLoop_stamps hopts hrest h r' hr' with ⟨hw, hst⟩ | ⟨hw, r₁, hr₁, hj₁, hk₁⟩
    · left
      dsimp only at hw ⊢
      exact ⟨by rw [List.any_cons, hw, Bool.or_true], hst⟩
    dsimp only at hw ⊢
    rcases Jobs.mem_update_jid.mp hr₁ with ⟨hr, hne⟩ | ⟨r, hr, hj, rfl⟩
    · right
      refine ⟨?_, r₁, hr, hj₁, hk₁⟩
      have hne' : job.jid ≠ r'.jid := fun heq => hne (hj₁.trans heq.symm)
      simp [hne', hw]
    · left
      have hj' : job.jid = r'.jid := hj.symm.trans hj₁
      refine ⟨by simp [hj', hrun], ?_⟩
      exact hk₁.stampedAt (resubmit_stamped hopts (hint job List.mem_cons_self) r)

theorem maxJid_le {db db' : Jobs} (h : KeepsJids db db') : db.maxJid ≤ db'.maxJid := by
  have key : ∀ rows : List Row, (∀ r ∈ rows, r.jid ≤ db'.maxJid) →
      rows.foldr (fun r m => max r.jid m) 0 ≤ db'.maxJid := by
    intro rows
    induction rows with
    | nil => exact fun _ => Nat.zero_le _
    | cons r rows ih =>
      intro hle
      have h1 := hle r List.mem_cons_self
      have h2 := ih fun r hr => hle r (List.mem_cons_of_mem _ hr)
      rw [List.foldr_cons]
      omega
  refine key db.rows fun r hr => ?_
  obtain ⟨r', hr', hj⟩ := h r hr
  exact hj ▸ Jobs.jid_le_maxJid hr'

/-- The loop of `touch`: rows are updated, or new ones submitted. -/
theorem touch_stamps {sqlite : OtherSql} {t : Nat} {host : String} {jobs : List JobHash}
    {db db' : Jobs} (hplain : ∀ job ∈ jobs, QuoteFree (touchKvs job))
    (hint : ∀ job ∈ jobs, ∀ p ∈ job.priority, P p)
    (h : touch sqlite (timestamp t) host jobs db = .ok db') :
    Stamps P t (fun jid => decide (db.maxJid < jid)) db db' := by
  unfold touch at h
  dsimp only at h
  split at h
  · cases h
  refine (foldlM_rule (I := fun db₁ => Stamps P t (fun jid => decide (db.maxJid < jid)) db db₁ ∧
    db.maxJid ≤ db₁.maxJid) ?_ ⟨?_, Nat.le_refl _⟩ h).1
  · rintro job hjob db₁ db₂ ⟨hst, hmax⟩ hok
    unfold touchOne at hok
    split at hok
    · cases hok
    split at hok
    · -- an update of the pending job
      have hpri : ∀ kv ∈ touchKvs job, kv.1 = "priority" → ∃ v, kv.2 = some v ∧ P v := by
        intro kv hkv hname
        have hmem := List.mem_filter.mp hkv
        obtain ⟨v, hv⟩ := Option.isSome_iff_exists.mp hmem.2
        simp only [List.mem_cons, List.not_mem_nil, or_false] at hmem
        rcases hmem.1 with rfl | rfl | rfl
        · exact ⟨v, hv, hint job hjob v hv⟩
        · exact absurd (show "runner" = "priority" from hname) (by decide)
        · exact absurd (show "restartable" = "priority" from hname) (by decide)
      have hkept := update_kept (hplain job hjob) hpri hok
      refine ⟨fun r' hr' => ?_, Nat.le_trans hmax (maxJid_le (update_evolves (hplain job hjob) hok).2)⟩
      obtain ⟨r₁, hr₁, hj₁, hk₁⟩ := hkept r' hr'
      rw [← hj₁]
      rcases hst r₁ hr₁ with ⟨hw, hs⟩ | ⟨hw, r, hr, hj, hk⟩
      · exact Or.inl ⟨hw, hk₁.stampedAt hs⟩
      · exact Or.inr ⟨hw, r, hr, hj, hk.trans hk₁⟩
    · -- a new job
      refine ⟨fun r' hr' => ?_, Nat.le_trans hmax (maxJid_le (submit_evolves hok).2)⟩
      have hone : ∀ j ∈ [job], ∀ p ∈ j.priority, P p := by
        intro j hj
        rw [List.mem_singleton.mp hj]
        exact hint job hjob
      rcases submit_stamps hone hok r' hr' with ⟨hw, hs⟩ | ⟨-, r₁, hr₁, hj₁, hk₁⟩
      · left
        have hlt : db₁.maxJid < r'.jid := of_decide_eq_true hw
        exact ⟨decide_eq_true (by omega), hs⟩
      · rw [← hj₁]
        rcases hst r₁ hr₁ with ⟨hw, hs⟩ | ⟨hw, r, hr, hj, hk⟩
        · exact Or.inl ⟨hw, hk₁.stampedAt hs⟩
        · exact Or.inr ⟨hw, r, hr, hj, hk.trans hk₁⟩
  · intro r' hr'
    have hle := Jobs.jid_le_maxJid hr'
    exact Or.inr ⟨by simpa using hle, r', hr', rfl, Kept.refl r'⟩

/-- **Stamping commands** stamp the rows they write and keep the other stamps. -/
theorem stamped_stamps {sqlite : OtherSql} {s t : Lifecycle.State} {now : Nat} {host : String}
    {c : Stamped} (hp : PlainOp (.client (c.client now host))) (hint : c.Gives P)
    (hrows : ∀ r ∈ s.jobs, ∀ v ∈ r.priority, P v)
    (h : Lifecycle.step sqlite s (.client (c.client now host)) = some t) :
    Stamps P now (c.writes s.jobs) s.jobs t.jobs := by
  simp only [Lifecycle.step] at h
  split at h
  swap
  · cases h
  rename_i jobs hc
  cases h
  cases c with
  | submit jobs => exact submit_stamps hint hc
  | resubmit opts whats =>
    exact resubmitLoop_stamps hint (fun job hjob => hrows job (list_mem hjob)) hc
  | touch jobs => exact touch_stamps hp hint hc

/-! ## Every run -/

/-- The rows a command stamps are new ones, unless it is a resubmit. -/
theorem writes_new {c : Stamped} {db : Jobs} {jid : Nat} (h : c.writes db jid = true)
    (hc : ∀ opts whats, c ≠ .resubmit opts whats) : db.maxJid < jid := by
  cases c with
  | submit jobs => exact of_decide_eq_true h
  | touch jobs => exact of_decide_eq_true h
  | resubmit opts whats => exact absurd rfl (hc opts whats)

omit [Priorities P] in
/-- An old row sorts before one that is stamped now. -/
theorem before_stamped {s : State} {t : Nat} {c : Stamped} (hs : Inv P s) (hclock : s.clock < t)
    (hkeep : KeepsOrder s t c) {r : Row} (hr : r ∈ s.base.jobs) {jid : Nat}
    (hw : c.writes s.base.jobs jid = true) :
    timestamp (s.since r.jid) < timestamp t ∨
      (timestamp (s.since r.jid) = timestamp t ∧ r.jid < jid) := by
  obtain ⟨hfour, hsame⟩ := hkeep
  obtain ⟨hpast, hfour'⟩ := hs.past r hr
  by_cases hsec : s.since r.jid / 1000000 = t / 1000000
  · rcases hsame r hr hsec with hlt | ⟨heq, hnew⟩
    · exact Or.inl ((timestamp_lt_iff hfour' hfour).mpr (Or.inr ⟨hsec, hlt⟩))
    · -- the stamps are equal, and the new row has the larger jid
      right
      constructor
      · apply le_antisymm
        · apply not_lt.mp
          rw [timestamp_lt_iff hfour hfour']
          omega
        · apply not_lt.mp
          rw [timestamp_lt_iff hfour' hfour]
          omega
      · have hle := Jobs.jid_le_maxJid hr
        have hlt := writes_new hw hnew
        omega
  · left
    rw [timestamp_lt_iff hfour' hfour]
    omega

/-- **One operation** keeps the invariant. -/
theorem Inv.step {sqlite : OtherSql} {s u : State} {l : Label} (hs : Inv P s) (hg : Orderly P s l)
    (h : Oldest.step sqlite s l = some u) : Inv P u := by
  cases l with
  | stamped t host c =>
    simp only [Oldest.step] at h
    split at h
    swap
    · cases h
    rename_i hclock
    obtain ⟨base, hb, rfl⟩ := Option.map_eq_some_iff.mp h
    obtain ⟨hp, hint, hkeep⟩ := hg
    have hst := stamped_stamps hp hint (fun r hr => (hs.stamped r hr).given) hb
    -- the instant of a row after the step
    have hwritten : ∀ r ∈ base.jobs, c.writes s.base.jobs r.jid = false →
        ∃ r₀ ∈ s.base.jobs, r₀.jid = r.jid ∧ Kept P r₀ r := by
      intro r hr hw
      rcases hst r hr with ⟨hw', -⟩ | ⟨-, h⟩
      · rw [hw] at hw'
        cases hw'
      · exact h
    refine ⟨fun r hr => ?_, fun r hr => ?_, fun r hr r' hr' hlt => ?_⟩
    · dsimp only
      rcases hst r hr with ⟨hw, hstamp⟩ | ⟨hw, r₀, hr₀, hj, hk⟩
      · rw [if_pos hw]
        exact hstamp
      · rw [hw, ← hj]
        exact hk.stampedAt (hs.stamped r₀ hr₀)
    · dsimp only
      by_cases hw : c.writes s.base.jobs r.jid = true
      · rw [if_pos hw]
        exact ⟨Nat.le_refl t, hkeep.1⟩
      · obtain ⟨r₀, hr₀, hj, -⟩ := hwritten r hr (by simpa using hw)
        rw [if_neg hw, ← hj]
        exact ⟨by have := (hs.past r₀ hr₀).1; omega, (hs.past r₀ hr₀).2⟩
    · unfold Before
      dsimp only at hlt ⊢
      by_cases hw' : c.writes s.base.jobs r'.jid = true
      · rw [if_pos hw'] at hlt ⊢
        by_cases hw : c.writes s.base.jobs r.jid = true
        · rw [if_pos hw] at hlt
          omega
        · obtain ⟨r₀, hr₀, hj, -⟩ := hwritten r hr (by simpa using hw)
          rw [if_neg hw, ← hj]
          exact before_stamped hs hclock hkeep hr₀ hw'
      · obtain ⟨r₀', hr₀', hj', -⟩ := hwritten r' hr' (by simpa using hw')
        rw [if_neg hw', ← hj'] at hlt ⊢
        have hpast := (hs.past r₀' hr₀').1
        by_cases hw : c.writes s.base.jobs r.jid = true
        · rw [if_pos hw] at hlt
          omega
        · obtain ⟨r₀, hr₀, hj, -⟩ := hwritten r hr (by simpa using hw)
          rw [if_neg hw, ← hj] at hlt ⊢
          exact hs.order r₀ hr₀ r₀' hr₀' hlt
  | other op =>
    simp only [Oldest.step] at h
    split at h
    swap
    · cases h
    rename_i hun
    obtain ⟨base, hb, rfl⟩ := Option.map_eq_some_iff.mp h
    have hkept := other_kept hun hg.1 hg.2 hb
    refine ⟨fun r hr => ?_, fun r hr => ?_, fun r hr r' hr' hlt => ?_⟩
    · obtain ⟨r₀, hr₀, hj, hk⟩ := hkept r hr
      rw [← hj]
      exact hk.stampedAt (hs.stamped r₀ hr₀)
    · obtain ⟨r₀, hr₀, hj, -⟩ := hkept r hr
      rw [← hj]
      exact hs.past r₀ hr₀
    · obtain ⟨r₀, hr₀, hj, -⟩ := hkept r hr
      obtain ⟨r₀', hr₀', hj', -⟩ := hkept r' hr'
      unfold Before
      rw [← hj, ← hj'] at hlt ⊢
      exact hs.order r₀ hr₀ r₀' hr₀' hlt

theorem reach_inv {sqlite : OtherSql} {s : State}
    (h : Reach Fresh (step sqlite) (Orderly P) s) : Inv P s := by
  refine Reach.invariant (I := Inv P) ?_ (fun s l u hs hg hst => hs.step hg hst) h
  rintro s rfl
  refine ⟨?_, ?_, ?_⟩
  · intro r hr
    cases hr
  · intro r hr
    cases hr
  · intro r hr
    cases hr

/-! ## The order of `getjob` -/

/-- One term of `order by`, with the terms after it. -/
theorem then_ne_gt {α : Type} [LinearOrder α] (a b : α) (o : Ordering) :
    (compare a b).then o ≠ .gt ↔ a < b ∨ (a = b ∧ o ≠ .gt) := by
  rcases lt_trichotomy a b with h | h | h
  · rw [compare_lt_iff_lt.mpr h]
    simp [Ordering.then, h]
  · rw [compare_eq_iff_eq.mpr h]
    simp [Ordering.then, h]
  · rw [compare_gt_iff_gt.mpr h]
    simp [Ordering.then, h.not_gt, h.ne']

/-- What `order by` sorts by: priority downwards, then stamp and jid upwards. -/
def sortKey (since : Nat → Nat) (r : Row) : ℤᵒᵈ ×ₗ String ×ₗ ℕ :=
  toLex (OrderDual.toDual ((priorityOf r).getD 0), toLex (timestamp (since r.jid), r.jid))

/-- On stamped rows `order by` is the order of the keys. -/
theorem orderedBefore_iff {since : Nat → Nat} {r r' : Row} (h : StampedAt P (since r.jid) r)
    (h' : StampedAt P (since r'.jid) r') :
    orderedBefore r r' ↔ sortKey since r ≤ sortKey since r' := by
  obtain ⟨v, p, hv, hvp, hp⟩ := h.priority.number
  obtain ⟨v', p', hv', hvp', hp'⟩ := h'.priority.number
  have hswap : (compare p p').swap = compare p' p := Std.OrientedOrd.eq_swap.symm
  have hjid : compare r.jid r'.jid ≠ .gt ↔ r.jid ≤ r'.jid := by
    rw [ne_eq, compare_gt_iff_gt, not_lt]
  unfold orderedBefore sortKey
  rw [hv, hv', h.submitted, h'.submitted]
  show (((sqliteCompare v v').swap.then (sqliteCompare (timestamp (since r.jid))
    (timestamp (since r'.jid)))).then (compare r.jid r'.jid)) ≠ .gt ↔ _
  rw [sqliteCompare_integer hvp hvp', sqliteCompare_timestamp, hswap, Ordering.then_assoc,
    then_ne_gt, then_ne_gt, hjid, Prod.Lex.toLex_le_toLex, Prod.Lex.toLex_le_toLex, hp, hp']
  simp only [Option.getD_some, OrderDual.toDual_lt_toDual, OrderDual.toDual_inj]
  exact ⟨fun h => h.imp id (fun h => ⟨h.1.symm, h.2⟩), fun h => h.imp id (fun h => ⟨h.1.symm, h.2⟩)⟩

/-- With 53 bits SQLite reads the priorities as the numbers they are, so `sqliteCompare` compares
    them as the C code does. -/
theorem compare_priorities {sqlite : OtherSql} {s : State} (hs : Reach Fresh (step sqlite) Good s)
    {r r' : Row} (hr : r ∈ s.base.jobs) (hr' : r' ∈ s.base.jobs) {v v' : String}
    (hv : r.priority = some v) (hv' : r'.priority = some v') :
    sqliteCompare v v' = compare (toDouble v) (toDouble v') := by
  have hinv := reach_inv hs
  obtain ⟨n, hn, hlt⟩ := (hinv.stamped r hr).given v hv
  obtain ⟨n', hn', hlt'⟩ := (hinv.stamped r' hr').given v' hv'
  exact sqliteCompare_toDouble (integerValue_some hn).1 (integerValue_some hn').1
    (exact_integer hn hlt) (exact_integer hn' hlt')

/-- **Oldest highest priority.**  In every run with integer priorities in which every job is
    submitted at an instant that keeps its place among the stamps: the job `getjob` returns is
    eligible for the host; no eligible job has a higher priority; and among those of its priority
    it is the one submitted first, or, of the jobs of one submission, the one with the smallest
    jid. -/
theorem getjob_oldest_first (sqlite : OtherSql) (s : State)
    (hs : Reach Fresh (step sqlite) (Orderly IsInteger) s) (h : Hostname) (job : Row)
    (hjob : getjob h s.base.jobs = some job) :
    eligible job = true ∧ acceptsHost h job = true ∧
    ∀ r ∈ s.base.jobs, eligible r = true → acceptsHost h r = true →
      ∃ p q, priorityOf job = some p ∧ priorityOf r = some q ∧ q ≤ p ∧
        (q = p → s.since job.jid < s.since r.jid ∨
          (s.since job.jid = s.since r.jid ∧ job.jid ≤ r.jid)) := by
  have hinv := reach_inv hs
  have hmem := (getjob_some hjob).1
  refine ⟨(getjob_some hjob).2, getjob_accepts hjob, fun r hr hel hacc => ?_⟩
  obtain ⟨-, p, -, -, hp⟩ := (hinv.stamped job hmem).priority.number
  obtain ⟨-, q, -, -, hq⟩ := (hinv.stamped r hr).priority.number
  have hiff : ∀ r ∈ s.base.jobs, ∀ r' ∈ s.base.jobs,
      (orderedBefore r r' ↔ sortKey s.since r ≤ sortKey s.since r') :=
    fun r hr r' hr' => orderedBefore_iff (hinv.stamped r hr) (hinv.stamped r' hr')
  have hfirst : orderedBefore job r := by
    refine getjob_first ?_ ?_ hjob r hr hel hacc
    · intro r hr r' hr'
      rw [hiff r hr r' hr', hiff r' hr' r hr]
      exact le_total _ _
    · intro a ha b hb c hc hab hbc
      rw [hiff a ha b hb] at hab
      rw [hiff b hb c hc] at hbc
      rw [hiff a ha c hc]
      exact hab.trans hbc
  rw [hiff job hmem r hr, sortKey, sortKey, Prod.Lex.toLex_le_toLex, Prod.Lex.toLex_le_toLex, hp, hq]
    at hfirst
  simp only [Option.getD_some, OrderDual.toDual_lt_toDual, OrderDual.toDual_inj] at hfirst
  refine ⟨p, q, hp, hq, ?_, fun heq => ?_⟩
  · rcases hfirst with h | ⟨h, -⟩
    · exact le_of_lt h
    · exact le_of_eq h.symm
  · -- a job submitted before this one would have sorted before it
    have hstamp : timestamp (s.since job.jid) < timestamp (s.since r.jid) ∨
        (timestamp (s.since job.jid) = timestamp (s.since r.jid) ∧ job.jid ≤ r.jid) := by
      rcases hfirst with h | ⟨-, h⟩
      · omega
      · exact h
    rcases Nat.lt_trichotomy (s.since job.jid) (s.since r.jid) with hlt | hsame | hgt
    · exact Or.inl hlt
    · right
      refine ⟨hsame, ?_⟩
      rw [hsame] at hstamp
      exact (hstamp.resolve_left (lt_irrefl _)).2
    · exfalso
      rcases hinv.order r hr job hmem hgt with hlt | ⟨heq', hlt⟩
      · rcases hstamp with h | ⟨h, -⟩
        · exact lt_asymm hlt h
        · exact absurd hlt (by rw [h]; exact lt_irrefl _)
      · rcases hstamp with h | ⟨-, h⟩
        · rw [heq'] at h
          exact lt_irrefl _ h
        · omega

/-- Two jobs, submitted at `t` and at `u`. -/
def twoJobs (t u : Nat) : List Label :=
  [.stamped t "node1" (.submit [{ command := some "first" }]),
   .stamped u "node1" (.submit [{ command := some "second" }])]

omit [Priorities P] in
/-- Instants of different seconds keep their place. -/
theorem twoJobs_orderly {t u : Nat} (ht : FourDigits t) (hu : FourDigits u) (h0 : u / 1000000 ≠ 0)
    (htu : t / 1000000 ≠ u / 1000000) :
    Along (step fun _ _ => .error "SQL error") (Orderly P) (twoJobs t u)
      { base := { jobs := Jobs.empty } } := by
  have hint : ∀ c : String, (Stamped.submit [{ command := some c }]).Gives P := by
    intro c job hjob p hp
    rw [List.mem_singleton.mp hjob] at hp
    cases hp
  refine ⟨⟨trivial, hint _, ht, fun r hr => by cases hr⟩, fun s hs => ?_⟩
  refine ⟨⟨trivial, hint _, hu, fun r _ hsec => ?_⟩, fun _ _ => trivial⟩
  simp only [step] at hs
  split at hs
  swap
  · cases hs
  obtain ⟨base, -, rfl⟩ := Option.map_eq_some_iff.mp hs
  dsimp only at hsec
  split at hsec
  · exact absurd hsec htu
  · exact absurd hsec.symm h0

set_option maxRecDepth 8000 in
/-- A job submitted in the second second of 1970 and one in the third: the first is returned. -/
theorem getjob_oldest_first_twoJobs :
    ∃ s job, exec (step fun _ _ => .error "SQL error") (twoJobs 1000005 2000000)
        { base := { jobs := Jobs.empty } } = some s ∧
      getjob node1 s.base.jobs = some job ∧ job.jid = 1 ∧ eligible job = true := by
  obtain ⟨s, hs, hobs⟩ : ∃ s, exec (step fun _ _ => .error "SQL error") (twoJobs 1000005 2000000)
      { base := { jobs := Jobs.empty } } = some s ∧
      ((getjob node1 s.base.jobs).any fun job => decide (job.jid = 1)) = true :=
    exists_of_any (by decide)
  obtain ⟨job, hjob, hjid⟩ := (Option.any_eq_true _ _).mp hobs
  have hgood := twoJobs_orderly (P := IsInteger) (t := 1000005) (u := 2000000) (by decide) (by decide)
    (by decide) (by decide)
  obtain ⟨hel, -, -⟩ := getjob_oldest_first _ s (Reach.exec (Reach.init rfl) hgood hs) node1 job hjob
  exact ⟨s, job, hs, hjob, of_decide_eq_true hjid, hel⟩

set_option maxRecDepth 8000 in
/-- **The slip.**  5 microseconds show as `.500000`, so a job submitted 0.399995 seconds later in
    the same second is returned first. -/
theorem getjob_younger_first :
    ∃ s job r, Reach Fresh (step fun _ _ => .error "SQL error") (fun _ _ => True) s ∧
      getjob node1 s.base.jobs = some job ∧ r ∈ s.base.jobs ∧ eligible r = true ∧
      acceptsHost node1 r = true ∧ priorityOf r = some 0 ∧ priorityOf job = some 0 ∧
      s.since r.jid < s.since job.jid := by
  obtain ⟨s, hs, hobs⟩ : ∃ s, exec (step fun _ _ => .error "SQL error") (twoJobs 5 400000)
      { base := { jobs := Jobs.empty } } = some s ∧
      ((getjob node1 s.base.jobs).any fun job => s.base.jobs.rows.any fun r =>
        decide (eligible r = true ∧ acceptsHost node1 r = true ∧ priorityOf r = some 0 ∧
          priorityOf job = some 0 ∧ s.since r.jid < s.since job.jid)) = true :=
    exists_of_any (by decide)
  obtain ⟨job, hjob, hany⟩ := (Option.any_eq_true _ _).mp hobs
  obtain ⟨r, hr, hrow⟩ := List.any_eq_true.mp hany
  exact ⟨s, job, r, Reach.exec (Reach.init rfl) (along_true _ _) hs, hjob, hr,
    of_decide_eq_true hrow⟩

end RubyQueue.Oldest
