/-
  The operations of a queue in any order, with no condition on who performs them.

  `Lifecycle` follows feeders that own what they reap.  Some properties need nothing of the kind:
  here a job may be started, recorded as done or buried at any time by anybody.  What is true of
  every row then is a predicate that each operation keeps, whatever the rest of the table is.

  * `RowInv P`   — each way a row is made or changed keeps `P`;
  * `RowInv.all` — then `P` holds of every row after any sequence of operations.
-/
import RubyQueue.Base.Run
import RubyQueue.Clients
import RubyQueue.Feeder

namespace RubyQueue.Operations

open RubyQueue.JobQueue RubyQueue.Feeder RubyQueue.Run RubyQueue.Raise

/-! ## The operations -/

/-- One operation that commits.  `delete` is `JobQueue#delete`; with `force` it is also what
    `rotate` does in the copy of the queue. -/
inductive Op
  | client (c : Client)
  | delete (force : Bool) (whats : List String)
  | startJob (h : Hostname) (job : Row) (e : Fork)
  | jobIsDone (w : Waited) (child : Row)
  | fillMorgue (h : Hostname) (started : String)

def step (sqlite : OtherSql) (db : Jobs) : Op → Option Jobs
  | .client c => (c.exec sqlite db).toOption
  | .delete force whats => (JobQueue.delete sqlite force whats db).toOption
  | .startJob h job e => some (jobisrunning (launched h e job) db)
  | .jobIsDone w child => some (jobisdone (finishJob w child) db)
  | .fillMorgue h started => some (JobQueue.fillMorgue h started db)

/-- A freshly created queue. -/
def Fresh (db : Jobs) : Prop := db = Jobs.empty

theorem fresh_empty : Fresh Jobs.empty := rfl

/-- No value and no argument of the operation leaves its place in a statement. -/
def PlainOp : Op → Prop
  | .client c => c.Plain
  | .delete _ whats => ∀ what ∈ whats, PlainArg what
  | _ => True

/-! ## What each operation does to a row -/

/-- Each way a row is made or changed keeps `P`. -/
structure RowInv (P : Row → Prop) : Prop where
  submitted : ∀ now host jid job, P { submittedRow now host jid job with jid := jid }
  resubmitted : ∀ now host job r, r.jid = job.jid → P r →
    P { resubmittedRow now host job r with jid := r.jid }
  assigned : ∀ as r, Updates as → Waiting r → P r → P { r.assign as with jid := r.jid }
  running : ∀ h e job r, r.jid = (launched h e job).jid → P r →
    P { r with pid := spliced (launched h e job).pid, state := spliced (launched h e job).state,
               started := spliced (launched h e job).started,
               runner := spliced (launched h e job).runner,
               stdout := spliced (launched h e job).stdout,
               stderr := spliced (launched h e job).stderr }
  done : ∀ w child r, r.jid = (finishJob w child).jid → P r →
    P { r with state := spliced (finishJob w child).state,
               exitStatus := spliced (finishJob w child).exitStatus,
               finished := spliced (finishJob w child).finished,
               elapsed := spliced (finishJob w child).elapsed }
  dead : ∀ r, P r → P { r with state := some "dead" }

section Rules

variable {P : Row → Prop} {sqlite : OtherSql} {db db' : Jobs}

/-- An update keeps `P` when it keeps it in the rows it selects. -/
theorem all_update {p : Row → Bool} {f : Row → Row} (hall : ∀ r ∈ db, P r)
    (hf : ∀ r ∈ db, p r = true → P { f r with jid := r.jid }) : ∀ s ∈ db.update p f, P s := by
  intro s hs
  obtain ⟨r, hr, rfl⟩ := Jobs.mem_update.mp hs
  unfold setWhere
  split
  · exact hf r hr ‹_›
  · exact hall r hr

theorem RowInv.all_newRows (hP : RowInv P) {now host : String} : ∀ {jobs : List JobHash} {jid : Nat},
    ∀ s ∈ newRows now host jid jobs, P s
  | [], _, _, hs => absurd hs List.not_mem_nil
  | job :: jobs, jid, s, hs => by
    rcases List.mem_cons.mp hs with rfl | hs
    · exact hP.submitted now host jid job
    · exact hP.all_newRows s hs

theorem RowInv.submit (hP : RowInv P) {now host : String} {jobs : List JobHash}
    (hall : ∀ r ∈ db, P r) (h : submit now host jobs db = .ok db') : ∀ s ∈ db', P s := by
  intro s hs
  rw [Jobs.mem_def, (submit_ok h).1, List.mem_append] at hs
  rcases hs with hs | hs
  · exact hall s hs
  · exact hP.all_newRows s hs

theorem RowInv.update (hP : RowInv P) {kvs : List (String × Option String)} {targets : List Target}
    (hq : QuoteFree kvs) (hall : ∀ r ∈ db, P r) (h : update sqlite kvs targets db = .ok db') :
    ∀ s ∈ db', P s := by
  obtain ⟨as, jids, hup, rfl⟩ := update_ok hq h
  refine all_update hall fun r hr hsel => ?_
  have hw : Waiting r := by
    simp only [updatable, Bool.and_eq_true, Bool.or_eq_true, eqLit_word] at hsel
    exact hsel.1
  exact hP.assigned as r hup hw (hall r hr)

theorem RowInv.reSubmit (hP : RowInv P) {now host : String} {opts : Overrides}
    {whats : List ListArg} (hall : ∀ r ∈ db, P r) (h : reSubmit now host opts whats db = .ok db') :
    ∀ s ∈ db', P s := by
  refine foldlM_rule (I := fun db => ∀ r ∈ db, P r) ?_ hall h
  intro job _ db₁ db₂ hall₁ hstep
  split at hstep
  · cases hstep
    exact hall₁
  rw [resubmit_eq] at hstep
  split at hstep
  swap
  · cases hstep
  cases hstep
  exact all_update hall₁ fun r hr hjid =>
    hP.resubmitted now host (opts.apply job) r (beq_iff_eq.mp hjid) (hall₁ r hr)

theorem RowInv.touch (hP : RowInv P) {now host : String} {jobs : List JobHash}
    (hq : ∀ job ∈ jobs, QuoteFree (touchKvs job)) (hall : ∀ r ∈ db, P r)
    (h : touch sqlite now host jobs db = .ok db') : ∀ s ∈ db', P s := by
  unfold JobQueue.touch at h
  simp only at h
  split at h
  · cases h
  refine foldlM_rule (I := fun db => ∀ r ∈ db, P r) ?_ hall h
  intro job hjob db₁ db₂ hall₁ hstep
  unfold touchOne at hstep
  split at hstep
  · cases hstep
  split at hstep
  · exact hP.update (hq job hjob) hall₁ hstep
  · exact hP.submit hall₁ hstep

theorem RowInv.client (hP : RowInv P) {c : Client} (hc : c.Plain) (hall : ∀ r ∈ db, P r)
    (h : c.exec sqlite db = .ok db') : ∀ s ∈ db', P s := by
  cases c with
  | submit now host jobs => exact hP.submit hall h
  | resubmit now host opts whats => exact hP.reSubmit hall h
  | update kvs targets => exact hP.update hc hall h
  | delete whats => exact fun s hs => hall s (delete_subset hc h s hs)
  | touch now host jobs => exact hP.touch hc hall h
  | rotate => exact fun s hs => hall s (delete_subset plainArg_rotate h s hs)

/-- **One operation.** -/
theorem RowInv.step (hP : RowInv P) {op : Op} (hp : PlainOp op) (hall : ∀ r ∈ db, P r)
    (h : step sqlite db op = some db') : ∀ s ∈ db', P s := by
  cases op with
  | client c => exact hP.client hp hall (of_toOption_eq_some h)
  | delete force whats => exact fun s hs => hall s (delete_subset hp (of_toOption_eq_some h) s hs)
  | startJob host job e =>
    obtain rfl := Option.some.inj h
    exact all_update hall fun r hr hjid => hP.running host e job r (beq_iff_eq.mp hjid) (hall r hr)
  | jobIsDone w child =>
    obtain rfl := Option.some.inj h
    exact all_update hall fun r hr hjid => hP.done w child r (beq_iff_eq.mp hjid) (hall r hr)
  | fillMorgue host started =>
    obtain rfl := Option.some.inj h
    intro s hs
    rcases mem_fillMorgue.mp hs with ⟨hs, -⟩ | ⟨r, hr, rfl⟩
    · exact hall s hs
    · exact hP.dead r (hall r (mem_getdeadjobs hr).1)

/-- **Every sequence of operations** on a fresh queue. -/
theorem RowInv.all (hP : RowInv P)
    (h : Reach Fresh (Operations.step sqlite) (fun _ op => PlainOp op) db) : ∀ r ∈ db, P r := by
  refine h.invariant ?_ fun s op t hs hp ht => hP.step hp hs ht
  rintro s rfl r hr
  cases hr

end Rules

end RubyQueue.Operations
