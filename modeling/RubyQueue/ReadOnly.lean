/-
  What the reading modes leave of the tables.

  `query`, `list` and `status` run in a `ro_transaction`: under a shared lock, and without `begin`
  and `commit`, so every statement of a text takes effect by itself.  `sqlite_exec` runs EVERY
  statement of the text it is given, one after the other, until one fails.

  The library is a parameter (`Engine`): a connection on which statements are run.  What is assumed
  of it is what the grammar of SQLite 2.8 says (`parse.y`): only a statement that starts with one of
  six keywords changes rows, and only those and `create` (of a temporary table of the same name)
  change which rows a later `select` from `jobs` reads.

  `read_only_iff` gives the requests that leave the tables alone on every engine: `list` always;
  `query` when no statement of its text starts with one of the six keywords; `status` when none of
  the texts it reaches does, a value a temporal text splices coming out of the table itself.
-/
import RubyQueue.QueryText

namespace RubyQueue.ReadOnly

open RubyQueue.Sqlite RubyQueue.Quote RubyQueue.JobQueue

/-! ## The library -/

/-- The two tables of a queue. -/
structure Db where
  jobs : Jobs
  attributes : List (String × Option String)

/-- The keywords of the statements that change rows. -/
def writers : List String := ["DELETE", "UPDATE", "INSERT", "REPLACE", "COPY", "DROP"]

/-- The statement starts with one of the keywords. -/
def startsWith (keywords : List String) (st : List Token) : Bool :=
  match st with
  | [] => false
  | t :: _ => keywords.any fun k => t.kind == .keyword k

/-- The statement can change rows. -/
def Writes (st : List Token) : Prop := startsWith writers st = true

/-- The statement can change what a later `select` reads. -/
def Changes (st : List Token) : Prop := startsWith ("CREATE" :: writers) st = true

instance (st : List Token) : Decidable (Writes st) := inferInstanceAs (Decidable (_ = _))

instance (st : List Token) : Decidable (Changes st) := inferInstanceAs (Decidable (_ = _))

/-- A statement that changes rows changes what is read. -/
theorem Writes.changes {st : List Token} (h : Writes st) : Changes st := by
  match st, h with
  | t :: _, h =>
    have h' : writers.any (fun k => t.kind == .keyword k) = true := h
    show (("CREATE" :: writers).any fun k => t.kind == .keyword k) = true
    rw [List.any_cons, h', Bool.or_true]

/-- Run statements one after the other, whatever becomes of each. -/
def runs {Conn : Type} (run : List Token → Conn → Conn × Bool) (sts : List (List Token))
    (c : Conn) : Conn :=
  sts.foldl (fun c st => (run st c).1) c

/-- SQLite: a connection, how a statement changes it and whether it succeeds, the tables the names
    `jobs` and `attributes` stand for, and the tables a closed connection leaves. -/
structure Engine where
  Conn : Type
  connect : Db → Conn
  run : List Token → Conn → Conn × Bool
  /-- Ruby can convert the first value the text selects to a number. -/
  converts : Text → Conn → Bool
  view : Conn → Db
  close : Conn → Db
  /-- Without a statement that changes rows, the tables stay. -/
  close_runs : ∀ db sts, (∀ st ∈ sts, ¬ Writes st) → close (runs run sts (connect db)) = db
  /-- Without a statement that changes what is read, the names stand for them. -/
  view_runs : ∀ db sts, (∀ st ∈ sts, ¬ Changes st) → view (runs run sts (connect db)) = db

variable (e : Engine)

/-- An action on the connection, and whether it goes on after it (it raises otherwise). -/
abbrev Engine.Act := e.Conn → e.Conn × Bool

variable {e}

/-- One action after the other. -/
def Engine.andThen (a b : e.Act) : e.Act := fun c =>
  match a c with
  | (c, true) => b c
  | (c, false) => (c, false)

/-- `each`. -/
def Engine.each {α : Type} (f : α → e.Act) : List α → e.Act
  | [] => fun c => (c, true)
  | x :: xs => e.andThen (f x) (Engine.each f xs)

/-- `sqlite_exec` of the statements of a text: the first one that fails ends it. -/
def Engine.exec (sql : Text) : e.Act := Engine.each (e := e) e.run (statements sql)

/-! ## The requests -/

/-- The smallest value, the first of several (`minmaxStep`). -/
def least : List String → Option String
  | [] => none
  | v :: vs => some (vs.foldl (fun best w => if sqliteCompare w best = .lt then w else best) v)

/-- The largest value, the last of several. -/
def greatest : List String → Option String
  | [] => none
  | v :: vs => some (vs.foldl (fun best w => if sqliteCompare w best = .lt then best else w) v)

/-- The column a metric names. -/
def metricColumn (metric : String) (r : Row) : Option String :=
  if metric = "submitted" then r.submitted else if metric = "started" then r.started else r.elapsed

/-- `tuple['min']` and `tuple['max']`, where there is one.  A time's least value is named `max`. -/
def times (m : String × String) (db : Db) : List Text :=
  let vs := (db.jobs.rows.filter fun r => eqLit r.state m.1).filterMap (metricColumn m.2)
  let (lo, hi) := (least vs, greatest vs)
  (if m.2 = "elapsed" then [lo, hi] else [hi, lo]).filterMap (·.map String.toList)

/-- What `status` is given, with what it takes from the library: the clock, and whether the lambda
    `hms` returns for a text (it raises when the text is neither a number nor a stamp). -/
structure StatusArgs where
  now : Nat
  hms : Text → Bool
  exitCodeMap : List (Text × List Text)

/-- A request of a reading mode. -/
inductive Request
  | query (whereClause : Option Text)
  | list (whats : List Text)
  | status (args : StatusArgs)

/-- `tuples = execute sql` and the conversion of the first value. -/
def Engine.count (sql : Text) : e.Act :=
  e.andThen (e.exec sql) fun c => (c, e.converts sql c)

/-- The block for one value `t` of a state's tuple: the text is run before `hms` sees the value. -/
def Engine.which (hms : Text → Bool) (m : String × String) (t : Text) : e.Act :=
  e.andThen (e.exec (whichSql m.2 m.1 t)) fun c => (c, hms t)

/-- The block for one state. -/
def Engine.temporal (hms : Text → Bool) (m : String × String) : e.Act := fun c =>
  e.andThen (e.exec (extremesSql m.2 m.1)) (Engine.each (e.which hms m) (times m (e.view c))) c

/-- The performance and exit status parts of `status`. -/
def Engine.figures (a : StatusArgs) : e.Act :=
  e.andThen (e.count averageSql) <|
  e.andThen (Engine.each (fun n => e.count (recentSql
    (Util.timestamp (a.now - n * 3600 * 1000000)).toList)) [1, 12, 24]) <|
  e.andThen (e.count successesSql) <|
  e.andThen (e.count failuresSql) <|
  Engine.each (fun p : Text × List Text => e.count (codesSql p.2)) a.exitCodeMap

/-- `status`: the counts, the temporal part and the figures. -/
def Engine.status (a : StatusArgs) : e.Act :=
  e.andThen (Engine.each (fun s => e.count (countSql s)) statusStates) <|
  e.andThen (Engine.each (e.temporal a.hms) metrics) (e.figures a)

/-- What a request does on a connection. -/
def Engine.act (e : Engine) : Request → e.Act
  | .query w => e.exec (querySql w)
  | .list whats => e.exec (listSql whats)
  | .status a => e.status a

/-- The tables after a request. -/
def Engine.after (e : Engine) (r : Request) (db : Db) : Db :=
  e.close (e.act r (e.connect db)).1

/-! ## The requests that write nothing -/

/-- No statement of the text changes rows. -/
def Quiet (sql : Text) : Prop := ∀ st ∈ statements sql, ¬ Writes st

/-- No statement of the text changes what is read. -/
def Plain (sql : Text) : Prop := ∀ st ∈ statements sql, ¬ Changes st

theorem Plain.quiet {sql : Text} (h : Plain sql) : Quiet sql :=
  fun st hst hw => h st hst hw.changes

theorem plain_of_oneSelect {sql : Text} (h : OneSelect sql) : Plain sql := by
  obtain ⟨ts, hts⟩ := h
  intro st hst
  rw [hts, List.mem_singleton] at hst
  rw [hst]
  exact of_decide_eq_false rfl

/-- The values whose texts are run: up to the first one `hms` raises for. -/
def reached (hms : Text → Bool) : List Text → List Text
  | [] => []
  | t :: ts => t :: (if hms t then reached hms ts else [])

/-- The temporal blocks of `status`, in order.  A block that runs to its end hands on the connection
    to the next one, which reads the table by its name. -/
def TemporalHarmless (hms : Text → Bool) (db : Db) : List (String × String) → Prop
  | [] => True
  | m :: ms =>
    (∀ t ∈ reached hms (times m db), Quiet (whichSql m.2 m.1 t)) ∧
    ((times m db).all hms = true →
      (ms ≠ [] → ∀ t ∈ times m db, Plain (whichSql m.2 m.1 t)) ∧ TemporalHarmless hms db ms)

/-- The condition on a request and the tables it is made on. -/
def Harmless (db : Db) : Request → Prop
  | .query w => Quiet (querySql w)
  | .list _ => True
  | .status a =>
    TemporalHarmless a.hms db metrics ∧
    ((∀ m ∈ metrics, (times m db).all a.hms = true) →
      ∀ p ∈ a.exitCodeMap, Quiet (codesSql p.2))

/-! ## Rules for actions -/

section Rules

variable {P Q R : e.Conn → Prop} {a b : e.Act}

theorem andThen_of_true {c : e.Conn} (h : (a c).2 = true) : e.andThen a b c = b (a c).1 := by
  unfold Engine.andThen
  generalize a c = r at h
  match r, h with
  | (c', true), _ => rfl

theorem andThen_of_false {c : e.Conn} (h : (a c).2 = false) :
    e.andThen a b c = ((a c).1, false) := by
  unfold Engine.andThen
  generalize a c = r at h
  match r, h with
  | (c', false), _ => rfl

/-- The rule of composition: what holds when `a` raises, and what `b` starts from when it does
    not. -/
theorem andThen_rule (hraise : ∀ c, P c → (a c).2 = false → R (a c).1)
    (hgo : ∀ c, P c → (a c).2 = true → Q (a c).1) (hb : ∀ c, Q c → R (b c).1) :
    ∀ c, P c → R (e.andThen a b c).1 := by
  intro c hc
  cases ha : (a c).2 with
  | true =>
    rw [andThen_of_true ha]
    exact hb _ (hgo c hc ha)
  | false =>
    rw [andThen_of_false ha]
    exact hraise c hc ha

/-- What every action keeps is kept. -/
theorem andThen_inv (ha : ∀ c, P c → P (a c).1) (hb : ∀ c, P c → P (b c).1) :
    ∀ c, P c → P (e.andThen a b c).1 :=
  andThen_rule (fun c hc _ => ha c hc) (fun c hc _ => ha c hc) hb

theorem each_inv {α : Type} {f : α → e.Act} : ∀ {xs : List α}, (∀ x ∈ xs, ∀ c, P c → P (f x c).1) →
    ∀ c, P c → P (Engine.each f xs c).1
  | [], _ => fun _ hc => hc
  | _ :: _, h =>
    andThen_inv (h _ List.mem_cons_self) (each_inv fun x hx => h x (List.mem_cons_of_mem _ hx))

theorem andThen_true {c : e.Conn} (h : (e.andThen a b c).2 = true) :
    (a c).2 = true ∧ (b (a c).1).2 = true := by
  cases ha : (a c).2 with
  | true =>
    rw [andThen_of_true ha] at h
    exact ⟨rfl, h⟩
  | false =>
    rw [andThen_of_false ha] at h
    cases h

end Rules

/-! ## A harmless request leaves the tables -/

/-- Only statements that are not `bad` have been run on the connection. -/
def Ran (bad : List Token → Prop) (db : Db) (c : e.Conn) : Prop :=
  ∃ sts, (∀ st ∈ sts, ¬ bad st) ∧ c = runs e.run sts (e.connect db)

theorem ran_connect (bad : List Token → Prop) (db : Db) : Ran bad db (e.connect db) := by
  refine ⟨[], ?_, rfl⟩
  intro st hst
  exact absurd hst List.not_mem_nil

theorem Ran.mono {bad bad' : List Token → Prop} (hbad : ∀ st, bad' st → bad st) {db : Db}
    {c : e.Conn} (h : Ran bad db c) : Ran bad' db c := by
  obtain ⟨sts, hsts, rfl⟩ := h
  exact ⟨sts, fun st hst hb => hsts st hst (hbad st hb), rfl⟩

theorem Ran.close_eq {db : Db} {c : e.Conn} (h : Ran Writes db c) : e.close c = db := by
  obtain ⟨sts, hsts, rfl⟩ := h
  exact e.close_runs db sts hsts

theorem Ran.view_eq {db : Db} {c : e.Conn} (h : Ran Changes db c) : e.view c = db := by
  obtain ⟨sts, hsts, rfl⟩ := h
  exact e.view_runs db sts hsts

theorem ran_exec {bad : List Token → Prop} {db : Db} {sql : Text}
    (h : ∀ st ∈ statements sql, ¬ bad st) :
    ∀ c : e.Conn, Ran bad db c → Ran bad db (e.exec sql c).1 := by
  refine each_inv ?_
  rintro st hst c ⟨sts, hsts, rfl⟩
  refine ⟨sts ++ [st], ?_, ?_⟩
  · intro st' hst'
    rcases List.mem_append.mp hst' with h' | h'
    · exact hsts st' h'
    · rw [List.mem_singleton.mp h']
      exact h st hst
  · unfold runs
    rw [List.foldl_append]
    rfl

/-- A count changes what its text changes. -/
theorem ran_count {bad : List Token → Prop} {db : Db} {sql : Text}
    (h : ∀ st ∈ statements sql, ¬ bad st) :
    ∀ c : e.Conn, Ran bad db c → Ran bad db (e.count sql c).1 :=
  andThen_inv (ran_exec h) fun _ hc => hc

theorem which_true {hms : Text → Bool} {m : String × String} {t : Text} {c : e.Conn}
    (h : (e.which hms m t c).2 = true) : hms t = true :=
  (andThen_true h).2

/-- The values of one tuple, in a state with no bad statement run: the texts that are run are those
    of the reached values. -/
theorem ran_which {bad : List Token → Prop} {db : Db} {hms : Text → Bool} {m : String × String} :
    ∀ {ts : List Text},
    (∀ t ∈ reached hms ts, ∀ st ∈ statements (whichSql m.2 m.1 t), ¬ bad st) →
    ∀ c : e.Conn, Ran bad db c → Ran bad db (Engine.each (e.which hms m) ts c).1
  | [], _ => fun _ hc => hc
  | t :: ts, h => by
    have hblock : ∀ c : e.Conn, Ran bad db c → Ran bad db (e.which hms m t c).1 :=
      andThen_inv (ran_exec (h t List.mem_cons_self)) fun _ hc => hc
    refine andThen_rule (Q := fun c => Ran bad db c ∧ hms t = true) (fun c hc _ => hblock c hc)
      (fun c hc ht => ⟨hblock c hc, which_true ht⟩) ?_
    rintro c ⟨hc, ht⟩
    refine ran_which (fun t' ht' => h t' ?_) c hc
    rw [reached, ht]
    exact List.mem_cons_of_mem _ ht'

/-- A tuple dealt with to its end had values `hms` takes. -/
theorem all_of_which {hms : Text → Bool} {m : String × String} {ts : List Text} :
    ∀ {c : e.Conn}, (Engine.each (e.which hms m) ts c).2 = true → ts.all hms = true := by
  induction ts with
  | nil => exact fun _ => rfl
  | cons t ts ih =>
    intro c h
    obtain ⟨ht, hts⟩ := andThen_true h
    rw [List.all_cons, which_true ht, ih hts]
    rfl

theorem reached_subset {hms : Text → Bool} : ∀ {ts : List Text} {t : Text}, t ∈ reached hms ts →
    t ∈ ts
  | u :: ts, t, h => by
    rw [reached, List.mem_cons] at h
    rcases h with rfl | h
    · exact List.mem_cons_self
    · split at h
      · exact List.mem_cons_of_mem _ (reached_subset h)
      · cases h

/-- One block: it reads the table as it was given. -/
theorem ran_temporal {bad : List Token → Prop} {db : Db} {hms : Text → Bool}
    {m : String × String} (hm : m ∈ metrics) (hbad : ∀ st, bad st → Changes st)
    (h : ∀ t ∈ reached hms (times m db), ∀ st ∈ statements (whichSql m.2 m.1 t), ¬ bad st) (c : e.Conn)
    (hc : Ran Changes db c) :
    Ran bad db (e.temporal hms m c).1 ∧
      ((e.temporal hms m c).2 = true → (times m db).all hms = true) := by
  have hplain := plain_of_oneSelect (extremesSql_oneSelect hm)
  have hran : Ran bad db c := hc.mono hbad
  unfold Engine.temporal
  rw [hc.view_eq]
  refine ⟨andThen_inv (ran_exec fun st hst hb => hplain st hst (hbad st hb)) (ran_which h) c hran, ?_⟩
  intro htrue
  exact all_of_which (andThen_true htrue).2

/-- **All blocks.**  By induction on the blocks: one that is not the last hands on a connection on
    which the table still reads as given. -/
theorem ran_temporals {hms : Text → Bool} {db : Db} : ∀ {ms : List (String × String)},
    (∀ m ∈ ms, m ∈ metrics) → TemporalHarmless hms db ms → ∀ c : e.Conn, Ran Changes db c →
    Ran Writes db (Engine.each (e.temporal hms) ms c).1 ∧
      ((Engine.each (e.temporal hms) ms c).2 = true → ∀ m ∈ ms, (times m db).all hms = true) := by
  intro ms
  induction ms with
  | nil =>
    intro _ _ c hc
    refine ⟨hc.mono fun st hw => hw.changes, ?_⟩
    intro _ m hm
    exact absurd hm List.not_mem_nil
  | cons m ms ih =>
    intro hms' h c hc
    have hm := hms' m List.mem_cons_self
    have hblock := @ran_temporal e Writes db hms m hm (fun st hw => hw.changes) h.1 c hc
    rw [Engine.each]
    cases htrue : (e.temporal hms m c).2 with
    | false =>
      rw [andThen_of_false htrue]
      refine ⟨hblock.1, ?_⟩
      intro h'
      cases h'
    | true =>
      have hall := hblock.2 htrue
      obtain ⟨hplain, hrest⟩ := h.2 hall
      rw [andThen_of_true htrue]
      match ms, ih, hplain, hrest with
      | [], _, _, _ =>
        dsimp only [Engine.each]
        refine ⟨hblock.1, ?_⟩
        intro _ m' hm'
        rw [List.mem_singleton.mp hm']
        exact hall
      | m₂ :: ms, ih, hplain, hrest =>
        have hseen := @ran_temporal e Changes db hms m hm (fun st hst => hst)
          (fun t ht => hplain (by simp) t (reached_subset ht)) c hc
        have hnext := ih (fun m' hm' => hms' m' (List.mem_cons_of_mem _ hm')) hrest _ hseen.1
        refine ⟨hnext.1, ?_⟩
        intro h' m' hm'
        rcases List.mem_cons.mp hm' with rfl | hm'
        · exact hall
        · exact hnext.2 h' m' hm'

/-- Counts of texts that change no rows, in order. -/
theorem ran_counts {α : Type} {db : Db} {f : α → Text} {xs : List α} (h : ∀ x ∈ xs, Quiet (f x)) :
    ∀ c : e.Conn, Ran Writes db c → Ran Writes db (Engine.each (fun x => e.count (f x)) xs c).1 :=
  each_inv fun x hx => ran_count (h x hx)

theorem ran_status {a : StatusArgs} {db : Db} (h : Harmless db (.status a)) (c : e.Conn)
    (hc : Ran Changes db c) : Ran Writes db (e.status a c).1 := by
  obtain ⟨htemporal, hcodes⟩ := h
  have hcounts : ∀ c : e.Conn, Ran Changes db c →
      Ran Changes db (Engine.each (fun s => e.count (countSql s)) statusStates c).1 :=
    each_inv fun s hs => ran_count (plain_of_oneSelect (countSql_oneSelect hs))
  have hquiet : ∀ {sql : Text}, OneSelect sql → Quiet sql := fun h => (plain_of_oneSelect h).quiet
  have hstart : ∀ c : e.Conn, Ran Changes db c → Ran Writes db c :=
    fun c hc => hc.mono fun st hw => hw.changes
  refine andThen_rule (fun c hc _ => hstart _ (hcounts c hc)) (fun c hc _ => hcounts c hc) ?_ c hc
  -- The exit codes are reached only when every temporal block has run to its end.
  refine andThen_rule (Q := fun c => Ran Writes db c ∧ ∀ m ∈ metrics, (times m db).all a.hms = true)
    (fun c hc _ => (ran_temporals (fun m hm => hm) htemporal c hc).1) ?_ ?_
  · intro c hc htrue
    have hblocks := ran_temporals (fun m hm => hm) htemporal c hc
    exact ⟨hblocks.1, hblocks.2 htrue⟩
  · rintro c ⟨hc, hall⟩
    refine andThen_inv (ran_count (hquiet averageSql_oneSelect)) ?_ c hc
    refine andThen_inv (ran_counts fun n _ => hquiet (recentSql_oneSelect _)) ?_
    refine andThen_inv (ran_count (hquiet successesSql_oneSelect)) ?_
    refine andThen_inv (ran_count (hquiet failuresSql_oneSelect)) ?_
    exact ran_counts (hcodes hall)

/-- **A harmless request leaves the tables as they are**, on every engine. -/
theorem after_eq_of_harmless {r : Request} {db : Db} (h : Harmless db r) (e : Engine) :
    e.after r db = db := by
  match r, h with
  | .query w, h => exact (ran_exec h _ (ran_connect _ db)).close_eq
  | .list whats, _ =>
    have hquiet : Quiet (listSql whats) := (plain_of_oneSelect (listSql_oneSelect whats)).quiet
    exact (ran_exec hquiet _ (ran_connect _ db)).close_eq
  | .status a, h => exact (ran_status h _ (ran_connect _ db)).close_eq

/-! ## Any other request is seen to write -/

/-- The state of the probing engine: the tables, the statements that have changed rows, and whether
    a created table stands before `jobs`. -/
structure Probe where
  db : Db
  marks : Nat
  shadowed : Bool

def Probe.run (st : List Token) (p : Probe) : Probe × Bool :=
  ({ p with
      marks := p.marks + if Writes st then 1 else 0
      shadowed := p.shadowed || startsWith ["CREATE"] st }, true)

/-- The text a value of the created table holds. -/
def decoyText : String := "';delete from jobs;--"

/-- The created table: one row for each state. -/
def decoyRow (jid : Nat) (state : String) : Row where
  jid := jid
  priority := none
  state := some state
  submitted := some decoyText
  started := some decoyText
  finished := none
  elapsed := some decoyText
  submitter := none
  runner := none
  stdin := none
  stdout := none
  stderr := none
  data := none
  pid := none
  exitStatus := none
  tag := none
  restartable := none
  command := none

def decoy : Db where
  jobs := ⟨[decoyRow 1 "pending", decoyRow 2 "holding", decoyRow 3 "running",
    decoyRow 4 "finished", decoyRow 5 "dead"], by decide⟩
  attributes := []

/-- What statements have done to the probing engine. -/
theorem probe_runs : ∀ (sts : List (List Token)) (p : Probe),
    runs Probe.run sts p =
      { p with
        marks := p.marks + sts.countP (fun st => decide (Writes st))
        shadowed := p.shadowed || sts.any (startsWith ["CREATE"]) }
  | [], p => by simp [runs]
  | st :: sts, p => by
    have ih := probe_runs sts (Probe.run st p).1
    show runs Probe.run sts (Probe.run st p).1 = _
    rw [ih]
    by_cases h : Writes st
    · simp [Probe.run, h, Bool.or_assoc, Nat.add_assoc, Nat.add_comm]
    · simp [Probe.run, h, Bool.or_assoc]

theorem countP_eq_zero_iff_quiet {sql : Text} :
    (statements sql).countP (fun st => decide (Writes st)) = 0 ↔ Quiet sql := by
  simp [List.countP_eq_zero, Quiet]

theorem not_startsWith_create {st : List Token} (h : ¬ Changes st) :
    startsWith ["CREATE"] st = false := by
  match st, h with
  | [], _ => rfl
  | t :: _, h =>
    have h' : ¬ (("CREATE" :: writers).any fun k => t.kind == .keyword k) = true := h
    rw [List.any_cons, Bool.or_eq_true, not_or] at h'
    simpa [startsWith] using h'.1

theorem changes_of_create {st : List Token} (h : startsWith ["CREATE"] st = false)
    (hw : ¬ Writes st) : ¬ Changes st := by
  match st, h, hw with
  | [], _, _ => exact Bool.false_ne_true
  | t :: _, h, hw =>
    have h' : (t.kind == .keyword "CREATE") = false := by simpa [startsWith] using h
    intro hc
    have hc' : (("CREATE" :: writers).any fun k => t.kind == .keyword k) = true := hc
    rw [List.any_cons, h', Bool.false_or] at hc'
    exact hw hc'

/-- The engine that marks every statement that can change rows, and takes a created table for
    `jobs`. -/
@[reducible]
def probe : Engine where
  Conn := Probe
  connect db := ⟨db, 0, false⟩
  run := Probe.run
  converts _ _ := true
  view p := if p.shadowed then decoy else p.db
  close p := { p.db with attributes := List.replicate p.marks ("", none) ++ p.db.attributes }
  close_runs db sts h := by
    have hcount : sts.countP (fun st => decide (Writes st)) = 0 := by
      simpa [List.countP_eq_zero] using h
    rw [probe_runs, hcount]
    rfl
  view_runs db sts h := by
    have hany : sts.any (startsWith ["CREATE"]) = false :=
      List.any_eq_false.mpr fun st hst => by simp [not_startsWith_create (h st hst)]
    rw [probe_runs, hany]
    rfl

/-- A text on the probing engine. -/
theorem probe_exec (sql : Text) (p : Probe) :
    probe.exec sql p = (runs Probe.run (statements sql) p, true) := by
  have key : ∀ (sts : List (List Token)) (p : Probe),
      Engine.each (e := probe) probe.run sts p = (runs Probe.run sts p, true) := by
    intro sts
    induction sts with
    | nil => exact fun _ => rfl
    | cons st sts ih => exact fun p => ih (Probe.run st p).1
  exact key (statements sql) p

theorem probe_exec_plain {sql : Text} (h : Plain sql) (p : Probe) : probe.exec sql p = (p, true) := by
  have hcount := countP_eq_zero_iff_quiet.mpr h.quiet
  have hany : (statements sql).any (startsWith ["CREATE"]) = false :=
    List.any_eq_false.mpr fun st hst => by simp [not_startsWith_create (h st hst)]
  rw [probe_exec, probe_runs, hcount, hany, Bool.or_false, Nat.add_zero]

/-- A text that is not plain leaves its mark. -/
theorem probe_exec_not_plain {sql : Text} (h : ¬ Plain sql) (hq : Quiet sql) (p : Probe) :
    (probe.exec sql p).1.shadowed = true := by
  have hany : (statements sql).any (startsWith ["CREATE"]) = true := by
    by_contra hany
    rw [Bool.not_eq_true, List.any_eq_false] at hany
    exact h fun st hst => changes_of_create (by simpa using hany st hst) (hq st hst)
  rw [probe_exec, probe_runs, hany]
  simp

theorem decoy_times {m : String × String} (hm : m ∈ metrics) :
    times m decoy = [decoyText.toList, decoyText.toList] := by
  simp only [metrics, List.mem_cons, List.not_mem_nil, or_false] at hm
  rcases hm with rfl | rfl | rfl | rfl | rfl <;> decide +kernel

/-- The value of the created table leaves its literal. -/
theorem decoy_not_quiet {m : String × String} (hm : m ∈ metrics) :
    ¬ Quiet (whichSql m.2 m.1 decoyText.toList) := by
  have hwrites : (metrics.all fun m =>
      (statements (whichSql m.2 m.1 decoyText.toList)).any (startsWith writers)) = true := by
    decide +kernel
  obtain ⟨st, hst, hw⟩ := List.any_eq_true.mp (List.all_eq_true.mp hwrites m hm)
  exact fun h => h st hst hw

/-- No mark is taken away. -/
structure Probe.Le (p p' : Probe) : Prop where
  marks : p.marks ≤ p'.marks
  db : p'.db = p.db

theorem Probe.Le.refl (p : Probe) : Probe.Le p p := ⟨Nat.le_refl _, rfl⟩

theorem Probe.Le.trans {p q r : Probe} (h : Probe.Le p q) (h' : Probe.Le q r) : Probe.Le p r :=
  ⟨Nat.le_trans h.marks h'.marks, h'.db.trans h.db⟩

/-- An action of the probing engine takes no mark away. -/
def Grows (a : probe.Act) : Prop := ∀ p : Probe, Probe.Le p (a p).1

/-- An action that adds no mark. -/
def Same (a : probe.Act) (p : Probe) : Prop := (a p).1.marks = p.marks

theorem grows_andThen {a b : probe.Act} (ha : Grows a) (hb : Grows b) :
    Grows (probe.andThen a b) := by
  intro p
  exact @andThen_inv probe (Probe.Le p) a b (fun p' h => h.trans (ha p'))
    (fun p' h => h.trans (hb p')) p (.refl p)

theorem grows_each {α : Type} {f : α → probe.Act} {xs : List α} (h : ∀ x ∈ xs, Grows (f x)) :
    Grows (Engine.each f xs) := by
  intro p
  exact @each_inv probe (Probe.Le p) α f xs (fun x hx p' h' => h'.trans (h x hx p')) p (.refl p)

theorem grows_exec (sql : Text) : Grows (probe.exec sql) := by
  intro p
  rw [probe_exec, probe_runs]
  exact ⟨Nat.le_add_right _ _, rfl⟩

/-- No mark in the end, no mark on the way. -/
theorem same_andThen {a b : probe.Act} (ha : Grows a) (hb : Grows b) {p : Probe}
    (h : Same (probe.andThen a b) p) : Same a p ∧ ((a p).2 = true → Same b (a p).1) := by
  have hle := (ha p).marks
  cases htrue : (a p).2 with
  | true =>
    unfold Same at h ⊢
    rw [andThen_of_true htrue] at h
    have hle' := (hb (a p).1).marks
    exact ⟨by omega, fun _ => by omega⟩
  | false =>
    unfold Same at h ⊢
    rw [andThen_of_false htrue] at h
    refine ⟨h, ?_⟩
    intro h'
    cases h'

theorem quiet_of_same {sql : Text} {p : Probe} (h : Same (probe.exec sql) p) : Quiet sql := by
  unfold Same at h
  rw [probe_exec, probe_runs] at h
  have hcount : p.marks + (statements sql).countP (fun st => decide (Writes st)) = p.marks := h
  exact countP_eq_zero_iff_quiet.mp (by omega)

theorem grows_which (hms : Text → Bool) (m : String × String) (t : Text) :
    Grows (probe.which hms m t) :=
  grows_andThen (grows_exec _) fun p => .refl p

theorem grows_temporal (hms : Text → Bool) (m : String × String) :
    Grows (probe.temporal hms m) := by
  intro p
  exact grows_andThen (grows_exec _) (grows_each fun t _ => grows_which hms m t) p

theorem grows_count (sql : Text) : Grows (probe.count sql) :=
  grows_andThen (grows_exec _) fun p => .refl p

theorem probe_which (hms : Text → Bool) (m : String × String) (t : Text) (p : Probe) :
    probe.which hms m t p = ((probe.exec (whichSql m.2 m.1 t) p).1, hms t) := by
  show probe.andThen _ _ p = _
  rw [andThen_of_true (by rw [probe_exec])]

/-- A block without a mark: the texts it reached change no rows. -/
theorem reached_quiet {hms : Text → Bool} {m : String × String} {ts : List Text} :
    ∀ {p : Probe}, Same (Engine.each (probe.which hms m) ts) p →
    ∀ t ∈ reached hms ts, Quiet (whichSql m.2 m.1 t) := by
  induction ts with
  | nil =>
    intro p _ t ht
    exact absurd ht List.not_mem_nil
  | cons u ts ih =>
    intro p h t ht
    obtain ⟨hu, hts⟩ := same_andThen (grows_which hms m u) (grows_each fun t _ => grows_which hms m t) h
    have hwhich := probe_which hms m u p
    have hexec : Same (probe.exec (whichSql m.2 m.1 u)) p :=
      (congrArg (fun r : Probe × Bool => r.1.marks) hwhich).symm.trans hu
    rw [hwhich] at hts
    rw [reached, List.mem_cons] at ht
    rcases ht with rfl | ht
    · exact quiet_of_same hexec
    · split at ht
      · rename_i hhms
        exact ih (hts hhms) t ht
      · cases ht

/-- The values of a tuple, one after the other. -/
theorem which_cons (hms : Text → Bool) (m : String × String) (t : Text) (ts : List Text) (p : Probe) :
    Engine.each (probe.which hms m) (t :: ts) p =
      if hms t then Engine.each (probe.which hms m) ts (probe.exec (whichSql m.2 m.1 t) p).1
      else ((probe.exec (whichSql m.2 m.1 t) p).1, false) := by
  have hwhich := probe_which hms m t p
  have heach : Engine.each (probe.which hms m) (t :: ts) p =
      probe.andThen (probe.which hms m t) (Engine.each (probe.which hms m) ts) p := rfl
  rw [heach]
  cases hhms : hms t with
  | true =>
    have hflag : (probe.which hms m t p).2 = true := by rw [hwhich, hhms]
    rw [@andThen_of_true probe (probe.which hms m t) _ p hflag, hwhich]
    rfl
  | false =>
    have hflag : (probe.which hms m t p).2 = false := by rw [hwhich, hhms]
    rw [@andThen_of_false probe (probe.which hms m t) _ p hflag, hwhich]
    rfl

/-- A block runs to its end exactly when `hms` takes its values. -/
theorem which_completes (hms : Text → Bool) (m : String × String) (ts : List Text) :
    ∀ p : Probe, (Engine.each (probe.which hms m) ts p).2 = ts.all hms := by
  induction ts with
  | nil => exact fun _ => rfl
  | cons t ts ih =>
    intro p
    rw [which_cons, List.all_cons]
    split
    · rename_i hhms
      rw [ih, hhms, Bool.true_and]
    · rename_i hhms
      rw [Bool.eq_false_of_not_eq_true hhms, Bool.false_and]

theorem which_plain {hms : Text → Bool} {m : String × String} {ts : List Text} (p : Probe)
    (hall : ts.all hms = true) (h : ∀ t ∈ ts, Plain (whichSql m.2 m.1 t)) :
    Engine.each (probe.which hms m) ts p = (p, true) := by
  induction ts with
  | nil => rfl
  | cons t ts ih =>
    rw [List.all_cons, Bool.and_eq_true] at hall
    rw [which_cons, if_pos hall.1, probe_exec_plain (h t List.mem_cons_self)]
    exact ih hall.2 fun t ht => h t (List.mem_cons_of_mem _ ht)

/-- A created table stays before the other one. -/
theorem shadowed_which {hms : Text → Bool} {m : String × String} {ts : List Text} :
    ∀ p : Probe, p.shadowed = true → (Engine.each (probe.which hms m) ts p).1.shadowed = true := by
  refine @each_inv probe (fun p => p.shadowed = true) _ _ _ ?_
  intro t _ p hp
  rw [probe_which, probe_exec, probe_runs, hp]
  rfl

theorem which_not_plain {hms : Text → Bool} {m : String × String} {ts : List Text} :
    ∀ p : Probe, ts.all hms = true → (∀ t ∈ ts, Quiet (whichSql m.2 m.1 t)) →
    (∃ t ∈ ts, ¬ Plain (whichSql m.2 m.1 t)) →
    (Engine.each (probe.which hms m) ts p).1.shadowed = true := by
  induction ts with
  | nil =>
    rintro p _ _ ⟨t, ht, _⟩
    exact absurd ht List.not_mem_nil
  | cons u ts ih =>
    rintro p hall hquiet ⟨t, ht, hplain⟩
    rw [List.all_cons, Bool.and_eq_true] at hall
    rw [which_cons, if_pos hall.1]
    rcases List.mem_cons.mp ht with rfl | ht
    · exact shadowed_which _ (probe_exec_not_plain hplain (hquiet t List.mem_cons_self) p)
    · exact ih _ hall.2 (fun t ht => hquiet t (List.mem_cons_of_mem _ ht)) ⟨t, ht, hplain⟩

theorem probe_temporal {m : String × String} (hm : m ∈ metrics) (hms : Text → Bool) (p : Probe) :
    probe.temporal hms m p = Engine.each (probe.which hms m)
      (times m (if p.shadowed then decoy else p.db)) p := by
  have hplain := probe_exec_plain (plain_of_oneSelect (extremesSql_oneSelect hm)) p
  show probe.andThen _ _ p = _
  rw [andThen_of_true (by rw [hplain]), hplain]

theorem reached_of_all {hms : Text → Bool} : ∀ {ts : List Text}, ts.all hms = true →
    reached hms ts = ts
  | [], _ => rfl
  | t :: ts, h => by
    rw [List.all_cons, Bool.and_eq_true] at h
    rw [reached, if_pos h.1, reached_of_all h.2]

/-- **Blocks that leave no mark are harmless.**  A created table would show in the next block, whose
    first text then changes rows. -/
theorem temporal_harmless {hms : Text → Bool} {ms : List (String × String)} :
    (∀ m ∈ ms, m ∈ metrics) → ∀ p : Probe, p.shadowed = false →
    Same (Engine.each (probe.temporal hms) ms) p → TemporalHarmless hms p.db ms := by
  induction ms with
  | nil => exact fun _ _ _ _ => trivial
  | cons m ms ih =>
    intro hmem p hp h
    have hm := hmem m List.mem_cons_self
    obtain ⟨hblock, hrest⟩ :=
      same_andThen (grows_temporal hms m) (grows_each fun m _ => grows_temporal hms m) h
    have htemporal : probe.temporal hms m p =
        Engine.each (probe.which hms m) (times m p.db) p := by
      rw [probe_temporal hm, hp]
      rfl
    unfold Same at hblock
    rw [htemporal] at hblock hrest
    have hquiet := reached_quiet hblock
    refine ⟨hquiet, ?_⟩
    intro hall
    have hsame := hrest (by rw [which_completes, hall])
    have hplain : ms ≠ [] → ∀ t ∈ times m p.db, Plain (whichSql m.2 m.1 t) := by
      intro hne
      by_contra hnot
      push Not at hnot
      rw [reached_of_all hall] at hquiet
      have hshadow := which_not_plain p hall hquiet hnot
      obtain ⟨m₂, ms', rfl⟩ := List.exists_cons_of_ne_nil hne
      have hm₂ := hmem m₂ (List.mem_cons_of_mem _ List.mem_cons_self)
      have hblock₂ := (same_andThen (grows_temporal hms m₂)
        (grows_each fun m _ => grows_temporal hms m) hsame).1
      unfold Same at hblock₂
      rw [probe_temporal hm₂, hshadow, if_pos rfl, decoy_times hm₂] at hblock₂
      exact decoy_not_quiet hm₂ (reached_quiet hblock₂ _ List.mem_cons_self)
    refine ⟨hplain, ?_⟩
    by_cases hne : ms = []
    · rw [hne]
      trivial
    · rw [which_plain p hall (hplain hne)] at hsame
      exact ih (fun m' hm' => hmem m' (List.mem_cons_of_mem _ hm')) p hp hsame

/-- Blocks that are harmless and whose values `hms` takes run to the end. -/
theorem temporals_complete {hms : Text → Bool} {ms : List (String × String)} :
    (∀ m ∈ ms, m ∈ metrics) → ∀ p : Probe, p.shadowed = false → TemporalHarmless hms p.db ms →
    (∀ m ∈ ms, (times m p.db).all hms = true) →
    (Engine.each (probe.temporal hms) ms p).2 = true := by
  induction ms with
  | nil => exact fun _ _ _ _ _ => rfl
  | cons m ms ih =>
    intro hmem p hp h hall
    have hm := hmem m List.mem_cons_self
    have hallm := hall m List.mem_cons_self
    obtain ⟨hplain, hrest⟩ := h.2 hallm
    have htemporal : probe.temporal hms m p =
        Engine.each (probe.which hms m) (times m p.db) p := by
      rw [probe_temporal hm, hp]
      rfl
    have hflag : (probe.temporal hms m p).2 = true := by
      rw [htemporal, which_completes, hallm]
    have heach : Engine.each (probe.temporal hms) (m :: ms) p =
        Engine.each (probe.temporal hms) ms (probe.temporal hms m p).1 :=
      @andThen_of_true probe (probe.temporal hms m) _ p hflag
    rw [heach]
    by_cases hne : ms = []
    · rw [hne]
      rfl
    · rw [htemporal, which_plain p hallm (hplain hne)]
      exact ih (fun m' hm' => hmem m' (List.mem_cons_of_mem _ hm')) p hp hrest
        (fun m' hm' => hall m' (List.mem_cons_of_mem _ hm'))

theorem probe_count (sql : Text) (p : Probe) :
    probe.count sql p = ((probe.exec sql p).1, true) := by
  have hflag : (probe.exec sql p).2 = true := by rw [probe_exec]
  exact @andThen_of_true probe (probe.exec sql) _ p hflag

/-- Counts without a mark are of texts that change no rows. -/
theorem counts_quiet {α : Type} {f : α → Text} {xs : List α} :
    ∀ {p : Probe}, Same (Engine.each (fun x => probe.count (f x)) xs) p → ∀ x ∈ xs, Quiet (f x) := by
  induction xs with
  | nil =>
    intro p _ x hx
    exact absurd hx List.not_mem_nil
  | cons y xs ih =>
    intro p h x hx
    have hcount := probe_count (f y) p
    obtain ⟨hy, hxs⟩ :=
      same_andThen (grows_count (f y)) (grows_each fun x _ => grows_count (f x)) h
    have hexec : Same (probe.exec (f y)) p :=
      (congrArg (fun r : Probe × Bool => r.1.marks) hcount).symm.trans hy
    rcases List.mem_cons.mp hx with rfl | hx
    · exact quiet_of_same hexec
    · exact ih (hxs (by rw [hcount])) x hx

/-- Counts always go on. -/
theorem counts_complete {α : Type} {f : α → Text} {xs : List α} :
    ∀ p : Probe, (Engine.each (fun x => probe.count (f x)) xs p).2 = true := by
  induction xs with
  | nil => exact fun _ => rfl
  | cons y xs ih =>
    intro p
    have hflag : (probe.count (f y) p).2 = true := by rw [probe_count]
    have heach : Engine.each (fun x => probe.count (f x)) (y :: xs) p =
        Engine.each (fun x => probe.count (f x)) xs (probe.count (f y) p).1 :=
      @andThen_of_true probe (probe.count (f y)) _ p hflag
    rw [heach]
    exact ih _

/-- Counts of plain texts leave the probing engine as it is. -/
theorem counts_plain {α : Type} {f : α → Text} {xs : List α} (h : ∀ x ∈ xs, Plain (f x)) (p : Probe) :
    Engine.each (fun x => probe.count (f x)) xs p = (p, true) := by
  induction xs with
  | nil => rfl
  | cons y xs ih =>
    have hcount : probe.count (f y) p = (p, true) := by
      rw [probe_count, probe_exec_plain (h y List.mem_cons_self)]
    have heach : Engine.each (fun x => probe.count (f x)) (y :: xs) p =
        Engine.each (fun x => probe.count (f x)) xs (probe.count (f y) p).1 :=
      @andThen_of_true probe (probe.count (f y)) _ p (by rw [hcount])
    rw [heach, hcount]
    exact ih fun x hx => h x (List.mem_cons_of_mem _ hx)

theorem grows_figures (a : StatusArgs) : Grows (probe.figures a) :=
  grows_andThen (grows_count _) <| grows_andThen (grows_each fun _ _ => grows_count _) <|
  grows_andThen (grows_count _) <| grows_andThen (grows_count _) <|
  grows_each fun _ _ => grows_count _

/-- Figures without a mark: the codes change no rows. -/
theorem codes_quiet {a : StatusArgs} {p : Probe} (h : Same (probe.figures a) p) :
    ∀ q ∈ a.exitCodeMap, Quiet (codesSql q.2) := by
  have gcodes : Grows (Engine.each (fun p : Text × List Text => probe.count (codesSql p.2))
      a.exitCodeMap) := grows_each fun _ _ => grows_count _
  have gfail := grows_andThen (grows_count failuresSql) gcodes
  have gsucc := grows_andThen (grows_count successesSql) gfail
  have grecent : Grows (Engine.each (fun n => probe.count (recentSql
      (Util.timestamp (a.now - n * 3600 * 1000000)).toList)) [1, 12, 24]) :=
    grows_each fun _ _ => grows_count _
  have h₁ := (same_andThen (grows_count _) (grows_andThen grecent gsucc) h).2 (by rw [probe_count])
  have h₂ := (same_andThen grecent gsucc h₁).2 (counts_complete _)
  have h₃ := (same_andThen (grows_count _) gfail h₂).2 (by rw [probe_count])
  have h₄ := (same_andThen (grows_count _) gcodes h₃).2 (by rw [probe_count])
  exact counts_quiet h₄

theorem status_harmless {a : StatusArgs} {db : Db} (h : Same (probe.status a) ⟨db, 0, false⟩) :
    Harmless db (.status a) := by
  have gcounts : Grows (Engine.each (fun s => probe.count (countSql s)) statusStates) :=
    grows_each fun _ _ => grows_count _
  have gtemporal : Grows (Engine.each (probe.temporal a.hms) metrics) :=
    grows_each fun m _ => grows_temporal a.hms m
  have hcounts := @counts_plain String countSql statusStates
    (fun s hs => plain_of_oneSelect (countSql_oneSelect hs)) ⟨db, 0, false⟩
  have h₁ := (same_andThen gcounts (grows_andThen gtemporal (grows_figures a)) h).2
    (by rw [hcounts])
  rw [hcounts] at h₁
  obtain ⟨h₂, h₃⟩ := same_andThen gtemporal (grows_figures a) h₁
  have htemporal := temporal_harmless (fun m hm => hm) ⟨db, 0, false⟩ rfl h₂
  refine ⟨htemporal, ?_⟩
  intro hall
  exact codes_quiet (h₃ (temporals_complete (fun m hm => hm) ⟨db, 0, false⟩ rfl htemporal hall))

/-- Tables that come back as they were have no marks. -/
theorem same_of_close {a : probe.Act} {db : Db} (ha : Grows a)
    (h : probe.close (a ⟨db, 0, false⟩).1 = db) : Same a ⟨db, 0, false⟩ := by
  have hdb := (ha ⟨db, 0, false⟩).db
  have hlen := congrArg (fun db : Db => db.attributes.length) h
  simp only [List.length_append, List.length_replicate, hdb] at hlen
  show _ = 0
  omega

theorem harmless_of_after_eq {r : Request} {db : Db} (h : probe.after r db = db) :
    Harmless db r := by
  match r, h with
  | .query w, h => exact quiet_of_same (same_of_close (grows_exec _) h)
  | .list _, _ => trivial
  | .status a, h =>
    have hgrows : Grows (probe.status a) :=
      grows_andThen (grows_each fun _ _ => grows_count _)
        (grows_andThen (grows_each fun m _ => grows_temporal a.hms m) (grows_figures a))
    exact status_harmless (same_of_close hgrows h)

/-- **Exactly the harmless requests leave the tables as they are.** -/
theorem read_only_iff (r : Request) (db : Db) : (∀ e : Engine, e.after r db = db) ↔ Harmless db r :=
  ⟨fun h => harmless_of_after_eq (h probe), fun h e => after_eq_of_harmless h e⟩

/-- The tokens of `delete from jobs`. -/
def deleteJobs : List Token :=
  [⟨.keyword "DELETE", "delete".toList⟩, ⟨.keyword "FROM", "from".toList⟩, ⟨.id, "jobs".toList⟩]

theorem deleteJobs_writes : Writes deleteJobs := by decide

theorem runs_eq_self {Conn : Type} {run : List Token → Conn → Conn × Bool} {c : Conn} :
    ∀ {sts : List (List Token)}, (∀ st ∈ sts, (run st c).1 = c) → runs run sts c = c
  | [], _ => rfl
  | st :: sts, h => by
    show runs run sts (run st c).1 = c
    rw [h st List.mem_cons_self]
    exact runs_eq_self fun st' hst' => h st' (List.mem_cons_of_mem _ hst')

/-- SQLite on the statements below: `delete from jobs` empties the table. -/
def deleting : Engine where
  Conn := Db
  connect db := db
  run st db := (if st = deleteJobs then { db with jobs := Jobs.empty } else db, true)
  converts _ _ := true
  view db := db
  close db := db
  close_runs db sts h := by
    refine runs_eq_self fun st hst => if_neg ?_
    rintro rfl
    exact h _ hst deleteJobs_writes
  view_runs db sts h := by
    refine runs_eq_self fun st hst => if_neg ?_
    rintro rfl
    exact h _ hst deleteJobs_writes.changes

/-- `rq q query "1; delete from jobs"` on a queue with jobs. -/
theorem query_deletes :
    deleting.after (.query (some "1; delete from jobs".toList)) decoy ≠ decoy := by
  have hrows : (deleting.after (.query (some "1; delete from jobs".toList)) decoy).jobs.rows = [] := by
    decide +kernel
  intro h
  rw [h] at hrows
  cases hrows

end RubyQueue.ReadOnly
