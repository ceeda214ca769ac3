/-
  Do the figures of `status` add up?

  `JobQueue#status` counts the rows of each of five states and calls the sum the total; two further
  queries count successes and failures.  The sums are right when every row is in one of the five
  states and no finished row has a NULL `exit_status`, for NULL is neither `=0` nor `!=0`.  Both are
  true of every row after any sequence of operations (`Accountable`): a job killed by a signal has
  no exit status, and `jobisdone` splices that in as the empty text, which is not NULL.

  Two things break the figures.  An argument of `delete` whose first line is a number is spliced
  into the statements whole, and can put anything into the state of other rows.  And `--exit` may
  give a mapping the name `failures`, whose count then takes the place of the failures.

  The temporal and performance parts of the report are left out: no figure here comes from them.
-/
import RubyQueue.Operations
import RubyQueue.QueryText

namespace RubyQueue.Status

open RubyQueue.Sqlite RubyQueue.JobQueue RubyQueue.Feeder RubyQueue.Operations RubyQueue.Run
open RubyQueue.Raise

/-! ## The report -/

/-- `select count(*) from jobs where p`. -/
def count (p : Row → Bool) (db : Jobs) : Nat := db.rows.countP p

/-- `h[key] = n` of an ordered hash. -/
def store : List (String × Nat) → String → Nat → List (String × Nat)
  | [], key, n => [(key, n)]
  | e :: h, key, n => if e.1 = key then (key, n) :: h else e :: store h key n

/-- The parts `jobs` and `exit_status` of the report. -/
structure Stats where
  jobs : List (String × Nat)
  exitStatus : List (String × Nat)
deriving DecidableEq, Repr

/-- `state='finished' and exit_status=0`. -/
def isSuccess (r : Row) : Bool := eqLit r.state "finished" && eqLit r.exitStatus "0"

/-- `(state='finished' and exit_status!=0) or state='dead'`. -/
def isFailure (r : Row) : Bool :=
  eqLit r.state "finished" && neLit r.exitStatus "0" || eqLit r.state "dead"

/-- `state='finished' and (exit_status=… or …)`. -/
def hasCode (codes : List Int) (r : Row) : Bool :=
  eqLit r.state "finished" && codes.any fun code => eqLit r.exitStatus (toString code)

/-- The counts by state, with their total. -/
def jobCounts (db : Jobs) : List (String × Nat) :=
  let counts := statusStates.map fun state => (state, count (eqLit ·.state state) db)
  store counts "total" (counts.map Prod.snd).sum

/-- The loop over the exit code map.  With no code the condition is `()`, a syntax error. -/
def exitCodes (db : Jobs) : List (String × List Int) → List (String × Nat) →
    Except String (List (String × Nat))
  | [], h => .ok h
  | (which, codes) :: map, h =>
    if codes.isEmpty then .error "syntax error"
    else exitCodes db map (store h which (count (hasCode codes) db))

/-- `JobQueue#status`. -/
def status (exitCodeMap : List (String × List Int)) (db : Jobs) : Except String Stats := do
  let h := store (store [] "successes" (count isSuccess db)) "failures" (count isFailure db)
  let h ← exitCodes db exitCodeMap h
  return ⟨jobCounts db, h⟩

/-- The report accounts for every job. -/
def Accounts (exitCodeMap : List (String × List Int)) (db : Jobs) : Prop :=
  ∃ stats, status exitCodeMap db = .ok stats ∧
    stats.jobs.lookup "total" = some db.rows.length ∧
    ∃ successes failures, stats.exitStatus.lookup "successes" = some successes ∧
      stats.exitStatus.lookup "failures" = some failures ∧
      successes + failures = db.rows.countP (·.state = some "finished") +
        db.rows.countP (·.state = some "dead")

/-- No mapping takes the place of a figure, and each has a code. -/
def PlainMap (exitCodeMap : List (String × List Int)) : Prop :=
  ∀ m ∈ exitCodeMap, m.1 ≠ "successes" ∧ m.1 ≠ "failures" ∧ m.2 ≠ []

/-! ## Every row can be accounted for -/

/-- One of the five states, and an exit status when it is finished. -/
def Accountable (r : Row) : Prop :=
  (∃ state ∈ statusStates, r.state = some state) ∧
    (r.state = some "finished" → r.exitStatus ≠ none)

/-- In a state that is not "finished" there is nothing more to say. -/
theorem accountable_of_state {r : Row} {state : String} (h : r.state = some state)
    (hmem : state ∈ statusStates) (hne : state ≠ "finished") : Accountable r := by
  refine ⟨⟨state, hmem, h⟩, ?_⟩
  intro hf
  rw [h] at hf
  exact absurd (Option.some.inj hf) hne

theorem accountable_inv : RowInv Accountable where
  submitted now host jid job := accountable_of_state rfl (by decide) (by decide)
  resubmitted now host job r _ _ := accountable_of_state rfl (by decide) (by decide)
  assigned as r hup hw _ := by
    rcases (assign_updates hup r).2.2 hw with hs | hs
    · exact accountable_of_state hs (by decide) (by decide)
    · exact accountable_of_state hs (by decide) (by decide)
  running h e job r _ _ := @accountable_of_state _ "running" rfl (by decide) (by decide)
  done w child r _ _ := ⟨⟨"finished", by decide, rfl⟩, fun _ => Option.some_ne_none _⟩
  dead r _ := accountable_of_state rfl (by decide) (by decide)

/-! ## The sums -/

@[simp] theorem lookup_store {key key' : String} {n : Nat} : ∀ h : List (String × Nat),
    (store h key n).lookup key' = if key' = key then some n else h.lookup key'
  | [] => by
    by_cases hk : key' = key
    · simp [store, hk]
    · have hne : (key' == key) = false := by simpa using hk
      simp [store, List.lookup_cons, hk, hne]
  | (k, m) :: h => by
    have ih := @lookup_store key key' n h
    unfold store
    by_cases hk : k = key
    · subst hk
      rw [if_pos rfl, List.lookup_cons, List.lookup_cons]
      by_cases hk' : key' = k
      · simp [hk']
      · have hne : (key' == k) = false := by simpa using hk'
        simp [hk', hne]
    · rw [if_neg hk, List.lookup_cons, List.lookup_cons, ih]
      by_cases hk' : key' = k
      · subst hk'
        simp [hk]
      · have hne : (key' == k) = false := by simpa using hk'
        rw [hne]

/-- The mappings of a plain map are stored beside the figures. -/
theorem exitCodes_plain {db : Jobs} : ∀ {map : List (String × List Int)} {h : List (String × Nat)},
    PlainMap map → ∃ h', exitCodes db map h = .ok h' ∧
      h'.lookup "successes" = h.lookup "successes" ∧ h'.lookup "failures" = h.lookup "failures"
  | [], h, _ => ⟨h, rfl, rfl, rfl⟩
  | (which, codes) :: map, h, hmap => by
    obtain ⟨hsuc, hfail, hcodes⟩ := hmap (which, codes) List.mem_cons_self
    obtain ⟨h', hok, hs, hf⟩ := @exitCodes_plain db map (store h which (count (hasCode codes) db))
      fun m hm => hmap m (List.mem_cons_of_mem _ hm)
    refine ⟨h', ?_, ?_, ?_⟩
    · rw [exitCodes, if_neg (by simpa using hcodes), hok]
    · rw [hs, lookup_store, if_neg (Ne.symm hsuc)]
    · rw [hf, lookup_store, if_neg (Ne.symm hfail)]

/-- A row that can be accounted for is counted once among the states. -/
theorem sum_states {r : Row} (h : Accountable r) :
    (statusStates.map fun state => if eqLit r.state state then 1 else 0).sum = 1 := by
  obtain ⟨⟨state, hmem, hstate⟩, -⟩ := h
  rw [hstate]
  simp only [statusStates, List.mem_cons, List.not_mem_nil, or_false] at hmem
  rcases hmem with rfl | rfl | rfl | rfl | rfl <;> decide

/-- **The total.**  Induction on the rows: each adds one to one of the counts. -/
theorem sum_counts : ∀ {rows : List Row}, (∀ r ∈ rows, Accountable r) →
    (statusStates.map fun state => rows.countP (eqLit ·.state state)).sum = rows.length
  | [], _ => by decide
  | r :: rows, h => by
    have ih := @sum_counts rows fun s hs => h s (List.mem_cons_of_mem _ hs)
    have hr := sum_states (h r List.mem_cons_self)
    simp only [statusStates, List.map_cons, List.map_nil, List.sum_cons, List.sum_nil,
      List.countP_cons, List.length_cons] at ih hr ⊢
    omega

/-- A finished row with an exit status is a success or a failure, a dead one a failure. -/
theorem success_add_failure {r : Row} (h : Accountable r) :
    (if isSuccess r then 1 else 0) + (if isFailure r then 1 else 0)
      = (if r.state = some "finished" then 1 else 0) + (if r.state = some "dead" then 1 else 0) := by
  obtain ⟨⟨state, hmem, hstate⟩, hexit⟩ := h
  have hword : eqLit (some state) "finished" = decide (state = "finished") ∧
      eqLit (some state) "dead" = decide (state = "dead") := by
    clear hstate
    revert state
    decide
  unfold isSuccess isFailure
  rw [hstate, hword.1, hword.2]
  by_cases hfin : state = "finished"
  · subst hfin
    obtain ⟨v, hv⟩ := Option.ne_none_iff_exists'.mp (hexit hstate)
    have hcode : neLit (some v) "0" = !eqLit (some v) "0" := rfl
    rw [hv, hcode]
    cases eqLit (some v) "0" <;> rfl
  · by_cases hdead : state = "dead"
    · simp [hdead]
    · simp [hfin, hdead]

/-- **The exit statuses**, by the same induction. -/
theorem sum_exits : ∀ {rows : List Row}, (∀ r ∈ rows, Accountable r) →
    rows.countP isSuccess + rows.countP isFailure
      = rows.countP (·.state = some "finished") + rows.countP (·.state = some "dead")
  | [], _ => rfl
  | r :: rows, h => by
    have ih := @sum_exits rows fun s hs => h s (List.mem_cons_of_mem _ hs)
    have hr := success_add_failure (h r List.mem_cons_self)
    simp only [List.countP_cons, decide_eq_true_eq] at ih hr ⊢
    omega

/-- The figures of a table of such rows add up. -/
theorem accounts_of_rows {db : Jobs} (h : ∀ r ∈ db, Accountable r)
    {exitCodeMap : List (String × List Int)} (hmap : PlainMap exitCodeMap) :
    Accounts exitCodeMap db := by
  obtain ⟨h', hok, hs, hf⟩ := @exitCodes_plain db exitCodeMap
    (store (store [] "successes" (count isSuccess db)) "failures" (count isFailure db)) hmap
  refine ⟨⟨jobCounts db, h'⟩, ?_, ?_, count isSuccess db, count isFailure db, ?_, ?_, sum_exits h⟩
  · rw [status, hok]
    rfl
  · rw [jobCounts, lookup_store, if_pos rfl, List.map_map]
    exact congrArg some (sum_counts h)
  · rw [hs, lookup_store, if_neg (by decide), lookup_store, if_pos rfl]
  · rw [hf, lookup_store, if_pos rfl]

/-- **Status accounts for every job.**  After any sequence of operations on a fresh queue whose
    values and arguments stay in their places, with any map of exit codes that takes no figure's
    name. -/
theorem status_accounts (sqlite : OtherSql) (db : Jobs)
    (h : Reach Fresh (Operations.step sqlite) (fun _ op => PlainOp op) db)
    (exitCodeMap : List (String × List Int)) (hmap : PlainMap exitCodeMap) :
    Accounts exitCodeMap db :=
  accounts_of_rows (accountable_inv.all h) hmap

/-! ## Runs -/

/-- A row as far as the operations of a feeder read it. -/
def bareRow (jid : Nat) (command : Option String) : Row :=
  ⟨jid, none, none, none, none, none, none, none, none, none, none, none, none, none, none, none, none,
    command⟩

/-- Two jobs are submitted; the first is started, and killed by a signal. -/
def killedJob : List Op :=
  [.client (.submit "2005-07-01" "node1" [{ command := some "make" }, { command := some "ls" }]),
   .startJob node1 (bareRow 1 (some "make")) { pid := 100, now := "2005-07-02" },
   .jobIsDone ⟨100, none, "2005-07-03", "86400.0"⟩ (bareRow 1 (some "make"))]

theorem killedJob_plain : Along (Operations.step fun _ _ => .error "SQL error")
    (fun _ op => PlainOp op) killedJob Jobs.empty :=
  ⟨trivial, fun _ _ => ⟨trivial, fun _ _ => ⟨trivial, fun _ _ => trivial⟩⟩⟩

set_option maxRecDepth 4000 in
theorem killedJob_accounts : ∃ db, exec (Operations.step fun _ _ => .error "SQL error") killedJob
      Jobs.empty = some db ∧
    status [("ok", [42])] db = .ok ⟨[("pending", 1), ("holding", 0), ("running", 0), ("finished", 1),
      ("dead", 0), ("total", 2)], [("successes", 0), ("failures", 1), ("ok", 0)]⟩ ∧
    Accounts [("ok", [42])] db := by
  obtain ⟨db, hdb, hp⟩ := @exists_of_any _ _ (Operations.step fun _ _ => .error "SQL error")
    (fun db => decide ((status [("ok", [42])] db).toOption = some ⟨[("pending", 1), ("holding", 0),
      ("running", 0), ("finished", 1), ("dead", 0), ("total", 2)],
      [("successes", 0), ("failures", 1), ("ok", 0)]⟩)) killedJob Jobs.empty (by decide)
  have hreach : Reach Fresh (Operations.step fun _ _ => .error "SQL error")
      (fun _ op => PlainOp op) db :=
    (Reach.init fresh_empty).exec killedJob_plain hdb
  refine ⟨db, hdb, ?_, status_accounts _ db hreach _ ?_⟩
  · exact of_toOption_eq_some (of_decide_eq_true hp)
  · intro m hm
    rw [List.mem_singleton.mp hm]
    decide

/-- SQLite on `delete from jobs where jid=1` and `update jobs set state='lost'`, one after the
    other. -/
def loseJobs : OtherSql := fun text db =>
  if text = "1\n;update jobs set state='lost'--".toList then
    .ok ((db.delete (·.jid == 1)).update (fun _ => true) ({ · with state := some "lost" }))
  else .error "SQL error"

/-- Two jobs are submitted, and an argument of `delete` is a number on its first line only. -/
def losingJobs : List Op :=
  [.client (.submit "2005-07-01" "node1" [{ command := some "make" }, { command := some "ls" }]),
   .client (.delete ["1\n;update jobs set state='lost'--"])]

set_option maxRecDepth 4000 in
/-- One row and a total of none; and, for another reason, a finished row and no success or failure. -/
theorem status_loses_jobs :
    (∃ db, Reach Fresh (Operations.step loseJobs) (fun _ _ => True) db ∧
      db.rows.length = 1 ∧ ¬ Accounts [] db) ∧
    ∃ db, Reach Fresh (Operations.step fun _ _ => .error "SQL error") (fun _ op => PlainOp op) db ∧
      ¬ Accounts [("failures", [42])] db := by
  constructor
  · obtain ⟨db, hdb, hp⟩ := @exists_of_any _ _ (Operations.step loseJobs)
      (fun db => decide (db.rows.length = 1 ∧ (jobCounts db).lookup "total" = some 0))
      losingJobs Jobs.empty (by decide)
    obtain ⟨hlen, htotal⟩ := of_decide_eq_true hp
    refine ⟨db, (Reach.init fresh_empty).exec (along_true _ _) hdb, hlen, ?_⟩
    rintro ⟨stats, hok, hsum, -⟩
    obtain rfl := Except.ok.inj hok
    rw [hlen] at hsum
    exact absurd (htotal.symm.trans hsum) (by decide)
  · obtain ⟨db, hdb, hp⟩ := @exists_of_any _ _ (Operations.step fun _ _ => .error "SQL error")
      (fun db => decide ((status [("failures", [42])] db).toOption.map Stats.exitStatus
          = some [("successes", 0), ("failures", 0)] ∧
        db.rows.countP (·.state = some "finished") = 1))
      killedJob Jobs.empty (by decide)
    obtain ⟨hexit, hfin⟩ := of_decide_eq_true hp
    refine ⟨db, (Reach.init fresh_empty).exec killedJob_plain hdb, ?_⟩
    rintro ⟨stats, hok, -, successes, failures, hs, hf, hsum⟩
    rw [hok] at hexit
    obtain hexit : stats.exitStatus = [("successes", 0), ("failures", 0)] := Option.some.inj hexit
    rw [hexit] at hs hf
    obtain rfl : 0 = successes := Option.some.inj hs
    obtain rfl : 0 = failures := Option.some.inj hf
    omega

end RubyQueue.Status
