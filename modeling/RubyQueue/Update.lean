/-
  Does an update set what was asked, in the rows that were asked for?

  `JobQueue#update` splices its values into the statement as they are, and its block replaces the
  words `pending` and `holding` in the list of jids by the jids of the rows in that state.  The list
  is a variable of the call: a second run of the block finds the words gone and the jids of the
  first run in their place, and rows that came to wait in between are not looked for.

  `update_exact_iff` says when the update is exact none the less: row by row, from what was asked,
  the values and the list of jids the committed attempt starts from (`jidsLeft`).
-/
import RubyQueue.Clients

namespace RubyQueue.Update

open RubyQueue.Sqlite RubyQueue.Quote RubyQueue.JobQueue

/-! ## The attempts -/

/-- How far an attempt gets before it raises: not to the block, into one of the two selects, with so
    many tuples, or past them. -/
inductive Stop
  | start
  | pending (tuples : Nat)
  | holding (tuples : Nat)
  | past
deriving DecidableEq, Repr

/-- `jids.delete(word)`, and the jids of the tuples that arrive. -/
def expandWord (word : Target) (state : String) (tuples : List Nat → List Nat) (db : Jobs)
    (jids : List Target) : List Target :=
  if word ∈ jids then jids.filter (· ≠ word) ++ (tuples (jidsIn state db)).map Target.jid else jids

/-- The list of jids after an attempt that raised. -/
def afterAttempt (jids : List Target) (a : Jobs × Stop) : List Target :=
  match a.2 with
  | .start => jids
  | .pending n => expandWord .pending "pending" (List.take n) a.1 jids
  | .holding n =>
    expandWord .holding "holding" (List.take n) a.1 (expandWord .pending "pending" id a.1 jids)
  | .past => expandWord .holding "holding" id a.1 (expandWord .pending "pending" id a.1 jids)

/-- The list of jids as the attempts before leave it. -/
def jidsLeft (targets : List Target) (earlier : List (Jobs × Stop)) : List Target :=
  earlier.foldl afterAttempt targets

/-- `JobQueue#update`, when the attempts `earlier` have failed, each on the table as it was then,
    and the next one commits. -/
def updateRun (sqlite : OtherSql) (kvs : List (String × Option String)) (targets : List Target)
    (earlier : List (Jobs × Stop)) (db : Jobs) : Except String Jobs :=
  update sqlite kvs (jidsLeft targets earlier) db

/-! ## What was asked -/

/-- The value asked for a column, the last one when there are several. -/
def asked (as : List (Column × Option String)) (c : Column) : Option (Option String) :=
  as.reverse.lookup c

/-- The row is pending or holding, and meant by its jid or by the word for its state. -/
def designated (targets : List Target) (r : Row) : Bool :=
  (eqLit r.state "pending" || eqLit r.state "holding") &&
    (targets.contains (.jid r.jid) || (targets.contains .pending && eqLit r.state "pending") ||
      (targets.contains .holding && eqLit r.state "holding"))

/-- Every designated row has the values asked for and its other columns, every other row is as it
    was, and there are no other rows. -/
def SetsWhatWasAsked (as : List (Column × Option String)) (targets : List Target) (db db' : Jobs) :
    Prop :=
  db'.rows.map Row.jid = db.rows.map Row.jid ∧
    ∀ r ∈ db, ∀ s ∈ db', s.jid = r.jid →
      if designated targets r then ∀ c, s.get c = (asked as c).getD (r.get c) else s = r

/-- The row has the values already. -/
def HasAlready (as : List (Column × Option String)) (r : Row) : Prop :=
  ∀ c, (asked as c).getD (r.get c) = r.get c

/-! ## Assignments -/

theorem assign_concat (r : Row) (as : List (Column × Option String)) (cv : Column × Option String) :
    r.assign (as ++ [cv]) = (r.assign as).set cv.2 cv.1 := by
  unfold Row.assign
  rw [List.foldl_append]
  rfl

@[simp] theorem assign_jid (as : List (Column × Option String)) (r : Row) :
    (r.assign as).jid = r.jid := by
  induction as using List.reverseRecOn with
  | nil => rfl
  | append_singleton as cv ih => rw [assign_concat, Row.set_jid, ih]

/-- **What assignments come to**, column by column.  Induction from the last one. -/
theorem get_assign (as : List (Column × Option String)) (r : Row) (c : Column) :
    (r.assign as).get c = (asked as c).getD (r.get c) := by
  induction as using List.reverseRecOn with
  | nil => rfl
  | append_singleton as cv ih =>
    unfold asked at ih ⊢
    rw [assign_concat, Row.get_set, List.reverse_append, List.reverse_singleton,
      List.singleton_append, List.lookup_cons]
    by_cases hc : c = cv.1
    · subst hc
      simp
    · have hne : (c == cv.1) = false := by simpa using hc
      rw [if_neg hc, hne]
      exact ih

/-- Columns that no assignment names stay. -/
theorem get_assign_of_not_mem {as : List (Column × Option String)} {c : Column}
    (h : ∀ cv ∈ as, cv.1 ≠ c) (r : Row) : (r.assign as).get c = r.get c := by
  induction as using List.reverseRecOn with
  | nil => rfl
  | append_singleton as cv ih =>
    have hc : cv.1 ≠ c := h cv (by simp)
    rw [assign_concat, Row.get_set, if_neg (Ne.symm hc)]
    exact ih fun cv' hcv' => h cv' (List.mem_append_left _ hcv')

theorem assign_eq_self_iff {as : List (Column × Option String)} {r : Row} :
    r.assign as = r ↔ HasAlready as r := by
  unfold HasAlready
  constructor
  · intro h c
    rw [← get_assign, h]
  · intro h
    refine Row.ext_get (assign_jid as r) fun c => ?_
    rw [get_assign, h c]

/-- What is asked for comes back with its pairs of quotes halved. -/
theorem asked_readBack (as : List (Column × Option String)) (c : Column) :
    asked (readBack as) c
      = (asked as c).map (Option.map fun v => String.ofList (halve v.toList)) := by
  unfold asked readBack
  rw [← List.map_reverse]
  induction as.reverse with
  | nil => rfl
  | cons cv as ih =>
    rw [List.map_cons, List.lookup_cons, List.lookup_cons, ih]
    split <;> rfl

theorem mem_of_asked {as : List (Column × Option String)} {c : Column} {v : Option String}
    (h : asked as c = some v) : (c, v) ∈ as := by
  obtain ⟨l₁, l₂, hl, -⟩ := List.lookup_eq_some_iff.mp h
  rw [← List.mem_reverse, hl]
  exact List.mem_append_right _ List.mem_cons_self

/-! ## The rows selected -/

/-- **The committed attempt selects the rows its own list of jids designates.** -/
theorem updatable_expandTargets {targets : List Target} {db : Jobs} {r : Row} (hr : r ∈ db) :
    updatable (expandTargets targets db) r = designated targets r := by
  have hin : ∀ w : String, r.jid ∈ jidsIn w db ↔ eqLit r.state w = true := by
    intro w
    unfold jidsIn
    constructor
    · intro h
      obtain ⟨s, hs, hjid⟩ := List.mem_map.mp h
      obtain ⟨hmem, hw⟩ := List.mem_filter.mp hs
      obtain rfl := Jobs.eq_of_jid hmem hr hjid
      exact hw
    · intro h
      exact List.mem_map_of_mem (List.mem_filter.mpr ⟨hr, h⟩)
  unfold updatable designated
  rw [Bool.eq_iff_iff, Bool.and_eq_true, Bool.and_eq_true]
  refine and_congr_right fun _ => ?_
  rw [List.contains_iff_mem, mem_expandTargets, hin, hin]
  simp only [Bool.or_eq_true, Bool.and_eq_true, List.contains_iff_mem, or_assoc]

theorem setWhere_assign (p : Row → Bool) (as : List (Column × Option String)) (r : Row) :
    setWhere p (·.assign as) r = if p r then r.assign as else r := by
  unfold setWhere
  split
  · exact Row.ext_get (assign_jid as r).symm fun c => by cases c <;> rfl
  · rfl

/-- What an update makes of each row says whether it did what was asked. -/
theorem setsWhatWasAsked_update {as : List (Column × Option String)} {targets : List Target}
    {db : Jobs} {p : Row → Bool} {f : Row → Row} :
    SetsWhatWasAsked as targets db (db.update p f) ↔
      ∀ r ∈ db, if designated targets r then
          ∀ c, (setWhere p f r).get c = (asked as c).getD (r.get c)
        else setWhere p f r = r := by
  unfold SetsWhatWasAsked
  constructor
  · intro h r hr
    exact h.2 r hr _ (Jobs.mem_update.mpr ⟨r, hr, rfl⟩) (setWhere_jid p f r)
  · intro h
    refine ⟨?_, fun r hr s hs hjid => ?_⟩
    · show (db.rows.map (setWhere p f)).map Row.jid = _
      rw [List.map_map]
      exact List.map_congr_left fun r _ => setWhere_jid p f r
    · obtain ⟨r', hr', rfl⟩ := Jobs.mem_update.mp hs
      rw [setWhere_jid] at hjid
      obtain rfl := Jobs.eq_of_jid hr' hr hjid
      exact h r' hr'

/-! ## When an update is exact -/

/-- What must be so of a row, `left` being the list of jids the committed attempt starts from: a
    designated row is in it and the values have no quotes; a row that is missed, or set without
    being asked for, has the values already. -/
def Served (as : List (Column × Option String)) (targets left : List Target) (r : Row) : Prop :=
  match designated targets r, designated left r with
  | true, true => ∀ c v, asked as c = some (some v) → '\'' ∉ v.toList
  | true, false => HasAlready as r
  | false, true => HasAlready (readBack as) r
  | false, false => True

/-- The values a row gets are the values asked for exactly when these have no quotes. -/
theorem get_readBack_iff {as : List (Column × Option String)}
    (hq : ∀ cv ∈ as, ∀ v ∈ cv.2, Paired v.toList) (r : Row) :
    (∀ c, (r.assign (readBack as)).get c = (asked as c).getD (r.get c)) ↔
      ∀ c v, asked as c = some (some v) → '\'' ∉ v.toList := by
  refine forall_congr' fun c => ?_
  rw [get_assign, asked_readBack]
  cases hc : asked as c with
  | none => simp
  | some v =>
    cases v with
    | none => simp
    | some v =>
      have hv : Paired v.toList := hq _ (mem_of_asked hc) v rfl
      rw [Option.map_some, Option.getD_some, Option.getD_some, Option.map_some, Option.some.injEq]
      constructor
      · intro h w hw
        obtain rfl : v = w := by simpa using hw
        rw [← hv.halve_eq_self_iff]
        simpa using congrArg String.toList h
      · intro h
        rw [hv.halve_eq_self_iff.mpr (h v rfl), String.ofList_toList]

/-- **When an update sets what was asked and nothing else.**  The quotes of its values are paired,
    so that each value ends where it was meant to; a lone quote turns what follows into SQL. -/
theorem update_exact_iff (sqlite : OtherSql) (kvs : List (String × Option String))
    (as : List (Column × Option String)) (targets : List Target) (earlier : List (Jobs × Stop))
    (db db' : Jobs) (hv : validPairs kvs = .ok as) (hq : ∀ cv ∈ as, ∀ v ∈ cv.2, Paired v.toList)
    (h : updateRun sqlite kvs targets earlier db = .ok db') :
    SetsWhatWasAsked as targets db db' ↔
      ∀ r ∈ db, Served as targets (jidsLeft targets earlier) r := by
  obtain rfl := update_reads hv hq h
  rw [setsWhatWasAsked_update]
  refine forall₂_congr fun r hr => ?_
  rw [setWhere_assign, updatable_expandTargets hr]
  unfold Served
  cases designated targets r <;> cases designated (jidsLeft targets earlier) r
  · simp
  · simpa using assign_eq_self_iff
  · show (∀ c, r.get c = (asked as c).getD (r.get c)) ↔ HasAlready as r
    exact forall_congr' fun c => eq_comm
  · simpa using get_readBack_iff hq r

/-- A word that no failed attempt replaced is still there for the one that commits. -/
theorem jidsLeft_eq_self {targets : List Target} {earlier : List (Jobs × Stop)}
    (h : (.pending ∉ targets ∧ .holding ∉ targets) ∨ ∀ a ∈ earlier, a.2 = .start) :
    jidsLeft targets earlier = targets := by
  unfold jidsLeft
  induction earlier with
  | nil => rfl
  | cons a earlier ih =>
    have ha : afterAttempt targets a = targets := by
      unfold afterAttempt expandWord
      rcases h with ⟨hp, hh⟩ | hall
      · cases a.2 <;> simp [hp, hh]
      · rw [hall a List.mem_cons_self]
    rw [List.foldl_cons, ha]
    exact ih (h.imp_right fun hall a' ha' => hall a' (List.mem_cons_of_mem _ ha'))

/-- A pending job as `submit` makes it. -/
def pendingJob (jid : Nat) : Row where
  jid := jid
  priority := some "0"
  state := some "pending"
  submitted := some "2005-07-01"
  started := none
  finished := none
  elapsed := none
  submitter := some "node1"
  runner := none
  stdin := some (stdin4 jid)
  stdout := none
  stderr := none
  data := some (data4 jid)
  pid := none
  exitStatus := none
  tag := none
  restartable := none
  command := some "date"

def oneJob : Jobs := ⟨[pendingJob 1], by decide⟩

def twoJobs : Jobs := ⟨[pendingJob 1, pendingJob 2], by decide⟩

/-- An attempt failed on one job; the next one updates two, asked for by their jids. -/
theorem update_two_jobs :
    ∃ db', updateRun (fun _ _ => .error "SQL error") [("tag", some "x")] [.jid 1, .jid 2]
        [(oneJob, .past)] twoJobs = .ok db' ∧
      SetsWhatWasAsked [(.tag, some "x")] [.jid 1, .jid 2] twoJobs db' := by
  obtain ⟨db', h⟩ : ∃ db', updateRun (fun _ _ => .error "SQL error") [("tag", some "x")]
    [.jid 1, .jid 2] [(oneJob, .past)] twoJobs = .ok db' := ⟨_, rfl⟩
  refine ⟨db', h, (update_exact_iff _ _ _ _ _ _ _ rfl (by decide) h).mpr ?_⟩
  intro r hr
  rw [jidsLeft_eq_self (Or.inl (by decide))]
  unfold Served
  have hquotes : ∀ c v, asked [(.tag, some "x")] c = some (some v) → '\'' ∉ v.toList := by
    intro c v hc
    obtain ⟨-, rfl⟩ : c = .tag ∧ v = "x" := by simpa using mem_of_asked hc
    decide
  cases designated [.jid 1, .jid 2] r
  · trivial
  · exact hquotes

/-- A job that comes in between two attempts is not updated; a pair of quotes becomes one. -/
theorem update_misses :
    (∃ db', updateRun (fun _ _ => .error "SQL error") [("tag", some "x")] [.pending]
        [(oneJob, .past)] twoJobs = .ok db' ∧
      ¬ SetsWhatWasAsked [(.tag, some "x")] [.pending] twoJobs db') ∧
    (∃ db', updateRun (fun _ _ => .error "SQL error") [("tag", some "it''s")] [.pending] []
        oneJob = .ok db' ∧
      ¬ SetsWhatWasAsked [(.tag, some "it''s")] [.pending] oneJob db') := by
  constructor
  · refine ⟨⟨[{ pendingJob 1 with tag := some "x" }, pendingJob 2], by decide⟩, rfl, fun h => ?_⟩
    have h2 := h.2 (pendingJob 2) (by decide) (pendingJob 2) (by decide) rfl
    exact absurd (h2 .tag) (by decide)
  · refine ⟨⟨[{ pendingJob 1 with tag := some "it's" }], by decide⟩, rfl, fun h => ?_⟩
    have h1 := h.2 (pendingJob 1) (by decide) { pendingJob 1 with tag := some "it's" } (by decide) rfl
    exact absurd (h1 .tag) (by decide)

end RubyQueue.Update
