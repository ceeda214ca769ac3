/-
  `Toucher#touch` with the files: who gets the text of `--stdin`?

  Before it updates a job, `touch` puts the stdin the job has in front of the text of the user's
  file — in the user's file itself, which it opens for writing.  From there `JobQueue#update` takes
  the job's new stdin, and from there every later job of the batch takes its own.  The file is opened
  for writing in any case, but written to only when the job had a stdin: without one it is left
  empty.

  * `appends_iff`        — the contents alone: what a batch makes of one file, turn by turn;
  * `touchOne_files`     — one round of the loop is such a turn;
  * `touch_ok_iff`       — a touch returns when each round of its loop finds the files it needs;
  * `touch_distinct_iff` — when it leaves one pending job of each kind, by what `Touch` says of the
                           table;
  * `touch_stdin_iff`    — when each job ends up with its own stdin and the text, and the user's file
                           with the text.

  To `open` a name that starts with a bar is a command; no such name is looked at here.
-/
import RubyQueue.Pipeline
import RubyQueue.Touch

namespace RubyQueue.Toucher

open RubyQueue.Sqlite RubyQueue.Quote RubyQueue.JobQueue RubyQueue.Submitter RubyQueue.FileTree
open RubyQueue.JobFiles RubyQueue.Raise RubyQueue.Touch
open RubyQueue.Pipeline (cleared cleared_none cleared_other not_data_prefix_stdin)

/-! ## One file, turn by turn -/

/-- What a job of the batch is to the file: one that is submitted, or one that is updated and had
    this stdin. -/
inductive Turn
  | submit
  | update (found : Option String)
deriving DecidableEq, Repr

/-- The content of the user's file after a turn; the job's stdin is a copy of it. -/
def Turn.after (c : String) : Turn → String
  | .submit => c
  | .update (some P) => P ++ c
  | .update none => ""

/-- The stdin the job should have. -/
def Turn.due (U : String) : Turn → String
  | .submit => U
  | .update found => found.getD "" ++ U

/-- Every job gets its due, and the file has the content `U` in the end. -/
def Appends (U : String) : String → List Turn → Prop
  | c, [] => c = U
  | c, t :: ts => t.after c = t.due U ∧ Appends U (t.after c) ts

/-- Every stdin that is not empty is followed by an update of a job without one. -/
def Emptied : List Turn → Prop
  | [] => True
  | .update (some P) :: ts => (P = "" ∨ ts.head? = some (.update none)) ∧ Emptied ts
  | _ :: ts => Emptied ts

/-- With a text to append, every job that is updated has a stdin, an empty one; without, what the
    file holds is removed from it again. -/
def Clean (U : String) (ts : List Turn) : Prop :=
  if U = "" then Emptied ts else ∀ found, .update found ∈ ts → found = some ""

theorem length_append_le (P c : String) : c.length ≤ (P ++ c).length := by
  rw [String.length_append]
  exact Nat.le_add_left _ _

theorem append_eq_left_iff {P c : String} : P ++ c = P ↔ c = "" := by
  constructor
  · intro h
    have hlen := congrArg String.length h
    rw [String.length_append] at hlen
    exact String.length_eq_zero_iff.mp (by omega)
  · rintro rfl
    exact String.append_empty

/-- The file never shrinks on the way to a text that is not empty. -/
theorem Appends.length_le {U : String} (hU : U ≠ "") : ∀ {ts : List Turn} {c : String},
    Appends U c ts → c.length ≤ U.length
  | [], _, h => Nat.le_of_eq (congrArg String.length h)
  | .submit :: _, _, h => h.2.length_le hU
  | .update (some P) :: _, c, h => (length_append_le P c).trans (h.2.length_le hU)
  | .update none :: _, _, h => by
    have hempty : U = "" := by
      rw [← @String.empty_append U]
      exact h.1.symm
    exact absurd hempty hU

/-- With a text to append.  Induction on the turns; the file holds the text throughout. -/
theorem appends_text_iff {U : String} (hU : U ≠ "") : ∀ {ts : List Turn},
    Appends U U ts ↔ ∀ found, .update found ∈ ts → found = some ""
  | [] => by simp [Appends]
  | .submit :: ts => by
    show (U = U ∧ Appends U U ts) ↔ _
    rw [appends_text_iff hU]
    simp
  | .update none :: ts => by
    constructor
    · intro h
      have hempty : U = "" := by
        rw [← @String.empty_append U]
        exact h.1.symm
      exact absurd hempty hU
    · intro h
      cases h none List.mem_cons_self
  | .update (some P) :: ts => by
    show (P ++ U = P ++ U ∧ Appends U (P ++ U) ts) ↔ _
    constructor
    · rintro ⟨-, h⟩ found hfound
      have hP : P = "" := by
        have hle := h.length_le hU
        rw [String.length_append] at hle
        exact String.length_eq_zero_iff.mp (by omega)
      subst hP
      rw [String.empty_append] at h
      rcases List.mem_cons.mp hfound with heq | hfound
      · cases heq
        rfl
      · exact (appends_text_iff hU).mp h found hfound
    · intro h
      have hP : P = "" := Option.some.inj (h (some P) List.mem_cons_self)
      subst hP
      refine ⟨rfl, ?_⟩
      rw [String.empty_append]
      exact (appends_text_iff hU).mpr fun found hfound => h found (List.mem_cons_of_mem _ hfound)

/-- Without a text.  Induction on the turns, whatever is in the file. -/
theorem appends_empty_iff : ∀ {ts : List Turn} {c : String},
    Appends "" c ts ↔ (c = "" ∨ ts.head? = some (.update none)) ∧ Emptied ts
  | [], c => by simp [Appends, Emptied]
  | .submit :: ts, c => by
    show (c = "" ∧ Appends "" c ts) ↔ (c = "" ∨ some Turn.submit = some (.update none)) ∧ Emptied ts
    rw [appends_empty_iff]
    constructor
    · rintro ⟨hc, -, hts⟩
      exact ⟨Or.inl hc, hts⟩
    · rintro ⟨hc | hc, hts⟩
      · exact ⟨hc, Or.inl hc, hts⟩
      · cases hc
  | .update none :: ts, c => by
    show ("" = "" ++ "" ∧ Appends "" "" ts) ↔
      (c = "" ∨ some (Turn.update none) = some (.update none)) ∧ Emptied ts
    rw [appends_empty_iff]
    simp
  | .update (some P) :: ts, c => by
    show (P ++ c = P ++ "" ∧ Appends "" (P ++ c) ts) ↔
      (c = "" ∨ some (Turn.update (some P)) = some (.update none)) ∧
        (P = "" ∨ ts.head? = some (.update none)) ∧ Emptied ts
    rw [appends_empty_iff, String.append_empty, append_eq_left_iff]
    constructor
    · rintro ⟨rfl, h⟩
      rw [String.append_empty] at h
      exact ⟨Or.inl rfl, h⟩
    · rintro ⟨rfl | hc, h⟩
      · rw [String.append_empty]
        exact ⟨rfl, h⟩
      · cases hc

theorem appends_iff (U : String) (ts : List Turn) : Appends U U ts ↔ Clean U ts := by
  unfold Clean
  split
  · rename_i h
    subst h
    rw [appends_empty_iff]
    exact ⟨fun h => h.2, fun h => ⟨Or.inl rfl, h⟩⟩
  · rename_i h
    exact appends_text_iff h

/-! ## `Toucher#touch` -/

/-- `IO.read path if test ?e, path`. -/
def readIfThere (path : Path) (t : Tree) : Except String (Option String) :=
  match t path with
  | some (.file content) => .ok (some content)
  | some .directory => .error "Is a directory"
  | none => .ok none

/-- `open(path, 'w')` and what is written to it. -/
def openWrite (path : Path) (content : String) (t : Tree) : Except String Tree :=
  match t path with
  | some .directory => .error "Is a directory"
  | some (.file _) => .ok (write path content t)
  | none =>
    if t path.dropLast = some .directory then .ok (write path content t)
    else .error "No such file or directory"

/-- `clobber_stdin` for each job the update shows. -/
def clobberStdin (p : Place) (ts : Option String) (rows : List Row) (t : Tree) : Tree :=
  rows.foldl (fun t r => copyStdin p r.jid ts t) t

/-- `JobQueue#update` of one job, from the temporary file `ts` on. -/
def updateWith (sqlite : OtherSql) (p : Place) (kvs : List (String × Option String))
    (ts : Option String) (jid : Nat) (w : World) : Except String World := do
  let jobs ← JobQueue.update sqlite kvs [.jid jid] w.jobs
  .ok { w with jobs := jobs, tree := clobberStdin p ts (jobs.rows.filter (updatable [jid])) w.tree }

/-- `pbuf`. -/
def pbuf (p : Place) (pjob : Row) (t : Tree) : Except String (Option String) :=
  if pjob.stdin.isSome then readIfThere (standardIn4 p pjob.jid) t else .ok none

/-- `f.write pbuf if pbuf` and `f.write ubuf if pbuf`. -/
def written (pbuf ubuf : Option String) : String :=
  match pbuf with
  | some P => P ++ ubuf.getD ""
  | none => ""

/-- `update_job`.  Without a stdin given, the file written is a temporary one. -/
def updateJob (sqlite : OtherSql) (p : Place) (pjob : Row) (ujob : Hash) (w : World) :
    Except String World :=
  match ujob.get "stdin" with
  | some ustdin => do
    let pbuf ← pbuf p pjob w.tree
    let ubuf ← readIfThere (expandPath p.cwd ustdin) w.tree
    let tree ← openWrite (expandPath p.cwd ustdin) (written pbuf ubuf) w.tree
    let (ts, w) ← tmpStdin p (some ustdin) { w with tree := tree }
    updateWith sqlite p (touchKvs ujob.job) ts pjob.jid w
  | none =>
    if pjob.stdin.isSome then do
      let pbuf ← pbuf p pjob w.tree
      updateWith sqlite p (touchKvs ujob.job) (some (written pbuf none)) pjob.jid w
    else updateWith sqlite p (touchKvs ujob.job) none pjob.jid w

/-- The pending job of that command and tag, `pjobs[pcommands[[command, tag]]]`. -/
def findPending (pending : List Row) (job : Hash) : Option Row :=
  match job.get "command" with
  | none => none
  | some c => (pending.filter fun r =>
      r.command.any fun c' => touchKey c' r.tag == touchKey c (job.get "tag")).getLast?

/-- One round of the loop. -/
def touchOne (sqlite : OtherSql) (p : Place) (now host : String) (pending : List Row) (w : World)
    (job : Hash) : Except String World :=
  if job.get "command" = none then .error "undefined method strip for nil"
  else
    match findPending pending job with
    | some r => updateJob sqlite p r job w
    | none => JobFiles.submit p now host [job] w

/-- `Toucher#touch`, for the jobs of its command line and input. -/
def touch (sqlite : OtherSql) (p : Place) (now host : String) (opts : Options) (jobs : List Hash)
    (w : World) : Except String World :=
  let pending := list [.text "pending"] w.jobs
  if pending.any (·.command.isNone) then .error "undefined method strip for nil"
  else (jobs.map (stamp opts)).foldlM (touchOne sqlite p now host pending) w

/-! ## The table -/

section Table

variable {sqlite : OtherSql} {p : Place} {now host : String} {pending : List Row} {job : Hash}
  {w w' : World}

theorem updateWith_jobs {kvs : List (String × Option String)} {ts : Option String} {jid : Nat}
    (h : updateWith sqlite p kvs ts jid w = .ok w') :
    JobQueue.update sqlite kvs [.jid jid] w.jobs = .ok w'.jobs ∧
      w'.tree = clobberStdin p ts (w'.jobs.rows.filter (updatable [jid])) w.tree := by
  obtain ⟨jobs, hjobs, h⟩ := bind_eq_ok.mp h
  cases h
  exact ⟨hjobs, rfl⟩

theorem updateJob_jobs {r : Row} (h : updateJob sqlite p r job w = .ok w') :
    JobQueue.update sqlite (touchKvs job.job) [.jid r.jid] w.jobs = .ok w'.jobs := by
  unfold updateJob at h
  split at h
  · obtain ⟨pb, -, h⟩ := bind_eq_ok.mp h
    obtain ⟨ub, -, h⟩ := bind_eq_ok.mp h
    obtain ⟨tree, -, h⟩ := bind_eq_ok.mp h
    obtain ⟨⟨ts, w₁⟩, hts, h⟩ := bind_eq_ok.mp h
    have hjobs := (updateWith_jobs h).1
    rw [tmpStdin_jobs hts] at hjobs
    exact hjobs
  · split at h
    · obtain ⟨pb, -, h⟩ := bind_eq_ok.mp h
      exact (updateWith_jobs h).1
    · exact (updateWith_jobs h).1

/-- **The table is the one of `JobQueue.touch`**, round by round. -/
theorem touchOne_jobs (h : touchOne sqlite p now host pending w job = .ok w') :
    JobQueue.touchOne sqlite now host pending w.jobs job.job = .ok w'.jobs := by
  unfold touchOne at h
  unfold JobQueue.touchOne
  have hcommand : job.job.command = job.get "command" := rfl
  have htag : job.job.tag = job.get "tag" := rfl
  rw [hcommand, htag]
  cases hc : job.get "command" with
  | none =>
    rw [if_pos hc] at h
    cases h
  | some c =>
    unfold findPending at h
    rw [if_neg (by simp [hc]), hc] at h
    dsimp only at h ⊢
    generalize (pending.filter fun r => r.command.any fun c' =>
      touchKey c' r.tag == touchKey c (job.get "tag")).getLast? = found at h ⊢
    cases found with
    | some r => exact updateJob_jobs h
    | none => exact submitFrom_jobs h

theorem touchLoop_jobs : ∀ {jobs : List Hash} {w : World},
    jobs.foldlM (touchOne sqlite p now host pending) w = .ok w' →
    (jobs.map Hash.job).foldlM (JobQueue.touchOne sqlite now host pending) w.jobs = .ok w'.jobs
  | [], _, h => by
    cases h
    rfl
  | job :: jobs, w, h => by
    rw [List.foldlM_cons] at h
    obtain ⟨w₁, hone, h⟩ := bind_eq_ok.mp h
    rw [List.map_cons, List.foldlM_cons, touchOne_jobs hone]
    exact touchLoop_jobs h

theorem touch_jobs {opts : Options} {jobs : List Hash}
    (h : touch sqlite p now host opts jobs w = .ok w') :
    JobQueue.touch sqlite now host ((jobs.map (stamp opts)).map Hash.job) w.jobs = .ok w'.jobs := by
  unfold touch at h
  unfold JobQueue.touch
  dsimp only at h ⊢
  split at h
  · cases h
  · rename_i hsome
    rw [if_neg hsome]
    exact touchLoop_jobs h

end Table

/-! ## The files of one round -/

/-- The text names a file of the user's: not a job's stdin, and nothing of a job's. -/
structure UserFile (p : Place) (text : String) : Prop where
  named : text ≠ "" ∧ text ≠ "-"
  plain : (lines text.toList).any namesStdin = false
  outside : ∀ n, ∀ path ∈ jobPaths p n, ¬ path <+: expandPath p.cwd text

/-- The stdin a job has: its row says so, and the file is there. -/
def stdinFound (p : Place) (t : Tree) (r : Row) : Option String :=
  if r.stdin.isSome then
    match t (standardIn4 p r.jid) with
    | some (.file content) => some content
    | _ => none
  else none

/-- Job `jid` has been given the content of the user's file, and no other job's stdin is touched. -/
structure Turned (p : Place) (text : String) (jid : Nat) (c : String) (t t' : Tree) : Prop where
  user : t' (expandPath p.cwd text) = some (.file c)
  stdin : t' (standardIn4 p jid) = some (.file c)
  other : ∀ n, n ≠ jid → t' (standardIn4 p n) = t (standardIn4 p n)

section Round

variable {sqlite : OtherSql} {p : Place} {now host text c : String} {job : Hash} {w w' : World}

theorem standardIn4_inj {m n : Nat} : standardIn4 p m = standardIn4 p n ↔ m = n := by
  constructor
  · intro h
    rw [standardIn4_eq, standardIn4_eq] at h
    have hnames := List.append_cancel_left h
    simp only [List.cons.injEq, and_true, true_and] at hnames
    exact toString_inj.mp hnames
  · rintro rfl
    rfl

theorem UserFile.ne_stdin (hu : UserFile p text) (n : Nat) :
    expandPath p.cwd text ≠ standardIn4 p n := by
  intro heq
  exact hu.outside n (standardIn4 p n) List.mem_cons_self (heq ▸ List.prefix_rfl)

theorem UserFile.tmpStdin (hu : UserFile p text) (hc : w.tree (expandPath p.cwd text) = some (.file c)) :
    tmpStdin p (some text) w = .ok (some c, w) := by
  have hpath : stdinPath p text = expandPath p.cwd text := by
    unfold stdinPath
    rw [hu.plain]
    rfl
  unfold JobFiles.tmpStdin
  dsimp only
  rw [if_neg hu.named.1, if_neg hu.named.2, hpath, hc]

theorem clobberStdin_eq {n : Nat} : ∀ {rows : List Row} {t : Tree}, rows ≠ [] →
    (∀ r ∈ rows, r.jid = n) → clobberStdin p (some c) rows t = write (standardIn4 p n) c t
  | [], _, hne, _ => absurd rfl hne
  | [r], t, _, hn => by
    show write (standardIn4 p r.jid) c t = _
    rw [hn r List.mem_cons_self]
  | r :: s :: rows, t, _, hn => by
    have ih := @clobberStdin_eq n (s :: rows) (write (standardIn4 p r.jid) c t)
      (List.cons_ne_nil _ _) fun r' hr' => hn r' (List.mem_cons_of_mem r hr')
    show clobberStdin p (some c) (s :: rows) (write (standardIn4 p r.jid) c t) = _
    rw [ih, hn r List.mem_cons_self]
    exact Function.update_idem _ _ _

theorem pbuf_ok {r : Row} {t : Tree} {found : Option String} (h : pbuf p r t = .ok found) :
    found = stdinFound p t r := by
  unfold pbuf readIfThere at h
  unfold stdinFound
  split at h
  · rename_i hsome
    rw [if_pos hsome]
    split at h
    · rename_i content hcontent
      rw [hcontent]
      exact (Except.ok.inj h).symm
    · cases h
    · rename_i hnone
      rw [hnone]
      exact (Except.ok.inj h).symm
  · rename_i hsome
    rw [if_neg hsome]
    exact (Except.ok.inj h).symm

theorem updatable_pending {s : Row} {n : Nat} (hs : s.state = some "pending") (hn : s.jid = n) :
    updatable [n] s = true := by
  unfold updatable
  rw [hs, hn]
  simp

/-- What is written to the user's file is what a turn makes of it. -/
theorem written_eq (found : Option String) (c : String) :
    written found (some c) = Turn.after c (.update found) := by
  cases found <;> rfl

/-- What an update writes to the user's file, and then takes from it. -/
theorem updateJob_user {r : Row} (hu : UserFile p text) (hjob : job.get "stdin" = some text)
    (hc : w.tree (expandPath p.cwd text) = some (.file c)) (h : updateJob sqlite p r job w = .ok w') :
    updateWith sqlite p (touchKvs job.job) (some (Turn.after c (.update (stdinFound p w.tree r)))) r.jid
      { w with tree := (write (expandPath p.cwd text)
                          (Turn.after c (.update (stdinFound p w.tree r))) w.tree) } = .ok w' := by
  unfold updateJob at h
  rw [hjob] at h
  obtain ⟨found, hfound, h⟩ := bind_eq_ok.mp h
  obtain rfl := pbuf_ok hfound
  have hread : readIfThere (expandPath p.cwd text) w.tree = .ok (some c) := by
    unfold readIfThere
    rw [hc]
  have hopen : ∀ content, openWrite (expandPath p.cwd text) content w.tree
      = .ok (write (expandPath p.cwd text) content w.tree) := by
    intro content
    unfold openWrite
    rw [hc]
  rw [hread] at h
  obtain ⟨ubuf, hubuf, h⟩ := bind_eq_ok.mp h
  obtain rfl := Except.ok.inj hubuf
  rw [hopen, written_eq] at h
  obtain ⟨tree, htree, h⟩ := bind_eq_ok.mp h
  obtain rfl := Except.ok.inj htree
  rw [hu.tmpStdin (write_self _ _ _)] at h
  exact h

/-- **An update is a turn of the user's file.** -/
theorem updateJob_turned {r : Row} (hu : UserFile p text) (hjob : job.get "stdin" = some text)
    (hq : PairedValues job.job) (hc : w.tree (expandPath p.cwd text) = some (.file c))
    (hr : ∃ s ∈ pendingRows w.jobs, s.jid = r.jid) (h : updateJob sqlite p r job w = .ok w') :
    Turned p text r.jid (Turn.after c (.update (stdinFound p w.tree r))) w.tree w'.tree ∧
      w'.jobs.rows.map Row.jid = w.jobs.rows.map Row.jid := by
  have hjobs := updateJob_jobs h
  rw [update_touch hq] at hjobs
  have hjobs := (Except.ok.inj hjobs).symm
  have htree := (updateWith_jobs (updateJob_user hu hjob hc h)).2
  dsimp only at htree
  -- the rows the update shows are that of the job, which still waits
  have hshown : w'.jobs.rows.filter (updatable [r.jid]) ≠ [] := by
    obtain ⟨s, hs, hsr⟩ := hr
    obtain ⟨hs, hpending⟩ := List.mem_filter.mp hs
    have hsame := sameJob_assign job.job (updatable [r.jid]) s
    exact List.ne_nil_of_mem (List.mem_filter.mpr ⟨hjobs ▸ Jobs.mem_update.mpr ⟨s, hs, rfl⟩,
      updatable_pending (hsame.state.trans (beq_iff_eq.mp hpending)) (hsame.jid.trans hsr)⟩)
  have hall : ∀ s ∈ w'.jobs.rows.filter (updatable [r.jid]), s.jid = r.jid := by
    intro s hs
    have hsel := (List.mem_filter.mp hs).2
    simp only [updatable, Bool.and_eq_true, List.contains_iff_mem, List.mem_singleton] at hsel
    exact hsel.2
  rw [clobberStdin_eq hshown hall] at htree
  rw [htree]
  refine ⟨⟨?_, write_self _ _ _, fun n hn => ?_⟩, ?_⟩
  · rw [write_ne (hu.ne_stdin r.jid)]
    exact write_self _ _ _
  · rw [write_ne fun h => hn (standardIn4_inj.mp h), write_ne (hu.ne_stdin n).symm]
  · rw [hjobs]
    show (w.jobs.rows.map (setWhere _ _)).map Row.jid = _
    rw [List.map_map]
    exact List.map_congr_left fun s _ => setWhere_jid _ _ s

/-- The data of a new job leaves what is beside it alone. -/
theorem copyData_other {jid : Nat} {data : Option String} {t t' : Tree} {x : Path}
    (hnone : t (data_4 p jid) = none) (hx : ¬ data_4 p jid <+: x)
    (hx' : t x ≠ none ∨ ¬ x <+: data_4 p jid) (h : copyData p jid data t = .ok t') : t' x = t x := by
  unfold copyData at h
  split at h
  · cases h
    unfold mkdirP
    rw [if_neg]
    rintro ⟨hbehind, hisNone⟩
    rcases hx' with hsome | hnot
    · exact hsome (Option.isNone_iff_eq_none.mp hisNone)
    · exact hnot hbehind
  · rename_i source
    split at h
    · rename_i t₁ hcopy
      cases h
      split at hcopy
      · cases hcopy
      unfold cpR at hcopy
      split at hcopy
      · cases hcopy
      cases hcopy
      refine graft_other ?_ t
      unfold target
      rw [hnone, if_neg (by simp)]
      exact hx
    · cases h

/-- **A submission is a turn of the user's file.** -/
theorem submit_turned (hu : UserFile p text) (hjob : job.get "stdin" = some text)
    (hc : w.tree (expandPath p.cwd text) = some (.file c))
    (h : JobFiles.submit p now host [job] w = .ok w') :
    Turned p text (w.jobs.maxJid + 1) c w.tree w'.tree ∧
      w'.jobs.rows.map Row.jid = w.jobs.rows.map Row.jid ++ [w.jobs.maxJid + 1] := by
  have hjobs : JobQueue.submit now host [job.job] w.jobs = .ok w'.jobs := submitFrom_jobs h
  have hrows := (submit_ok hjobs).1
  unfold JobFiles.submit JobFiles.submitFrom at h
  obtain ⟨w₁, hone, h⟩ := bind_eq_ok.mp h
  cases h
  unfold JobFiles.submitOne at hone
  split at hone
  · cases hone
  rw [hjob, hu.tmpStdin hc] at hone
  obtain ⟨⟨ts, w₂⟩, hts, hone⟩ := bind_eq_ok.mp hone
  obtain ⟨rfl, rfl⟩ := Prod.ext_iff.mp (Except.ok.inj hts)
  obtain ⟨db, -, hone⟩ := bind_eq_ok.mp hone
  obtain ⟨tree, htree, hone⟩ := bind_eq_ok.mp hone
  cases hone
  have htree : copyData p (w.jobs.maxJid + 1) (job.get "data")
      (cleared p (w.jobs.maxJid + 1) c w.tree) = .ok tree := htree
  have hdata : data_4 p (w.jobs.maxJid + 1) ∈ jobPaths p (w.jobs.maxJid + 1) := by simp [jobPaths]
  have hnone : cleared p (w.jobs.maxJid + 1) c w.tree (data_4 p (w.jobs.maxJid + 1)) = none := by
    refine cleared_none hdata List.prefix_rfl (fun heq => ?_) c w.tree
    exact not_data_prefix_stdin p (w.jobs.maxJid + 1) (heq ▸ List.prefix_rfl)
  have hbeside : ∀ n, ¬ data_4 p (w.jobs.maxJid + 1) <+: standardIn4 p n ∧
      ¬ standardIn4 p n <+: data_4 p (w.jobs.maxJid + 1) := by
    intro n
    rw [data_4_eq, standardIn4_eq, List.prefix_append_right_inj, List.prefix_append_right_inj]
    simp
  have huser : cleared p (w.jobs.maxJid + 1) c w.tree (expandPath p.cwd text) = some (.file c) := by
    rw [cleared_other (hu.outside _), hc]
  have hstdin : ∀ n, tree (standardIn4 p n) = cleared p (w.jobs.maxJid + 1) c w.tree (standardIn4 p n) :=
    fun n => copyData_other hnone (hbeside n).1 (Or.inr (hbeside n).2) htree
  refine ⟨⟨?_, ?_, fun n hn => ?_⟩, ?_⟩
  · exact (copyData_other hnone (hu.outside _ _ hdata) (Or.inl (by simp [huser])) htree).trans huser
  · exact (hstdin _).trans (write_self _ _ _)
  · refine (hstdin n).trans (cleared_other (fun path hpath => ?_) c w.tree)
    rw [standardIn4_eq, ← List.append_nil (p.queue ++ _)]
    exact jobPaths_apart (Ne.symm hn) hpath "stdin" []
  · rw [hrows, List.map_append]
    rfl

end Round

/-! ## The batch -/

/-- What a job of the batch is to the user's file. -/
def turnOf (p : Place) (t : Tree) (pending : List Row) (job : Hash) : Turn :=
  match findPending pending job with
  | some r => .update (stdinFound p t r)
  | none => .submit

/-- What the rest of the batch needs: every job takes its stdin from the user's file, no two have
    the same pair, the values of those that update stay within their quotes, and the rows looked up
    before the loop are still there. -/
structure Ready (text : String) (pending : List Row) (jobs : List Hash) (w : World) : Prop where
  stdin : ∀ job ∈ jobs, job.get "stdin" = some text
  distinct : (jobs.map fun job => jobKey job.job).Nodup
  paired : ∀ job ∈ jobs, ∀ r, findPending pending job = some r → PairedValues job.job
  kept : ∀ r ∈ pending, ∃ s ∈ pendingRows w.jobs, s.jid = r.jid

/-- Every job has the stdin the touch owes it, and the user's file its content. -/
structure Fed (p : Place) (text U : String) (before : Tree) (pending : List Row) (jobs : List Hash)
    (w w' : World) : Prop where
  updated : ∀ job ∈ jobs, ∀ r, findPending pending job = some r →
    w'.tree (standardIn4 p r.jid) = some (.file ((stdinFound p before r).getD "" ++ U))
  submitted : ∀ s ∈ w'.jobs, s.jid ∉ w.jobs.rows.map Row.jid →
    w'.tree (standardIn4 p s.jid) = some (.file U)
  user : w'.tree (expandPath p.cwd text) = some (.file U)

section Batch

variable {sqlite : OtherSql} {p : Place} {now host text c U : String} {pending : List Row}
  {job : Hash} {jobs : List Hash} {w w₁ w' : World}

theorem jobKey_job {c : String} (hc : job.get "command" = some c) :
    jobKey job.job = some (touchKey c (job.get "tag")) := by
  show (job.get "command").map _ = _
  rw [hc]
  rfl

theorem findPending_some {r : Row} (h : findPending pending job = some r) :
    r ∈ pending ∧ rowKey r = jobKey job.job := by
  unfold findPending at h
  split at h
  · cases h
  · rename_i c hc
    rw [jobKey_job hc]
    exact matched_of_getLast? h

theorem findPending_none (hc : job.get "command" ≠ none) (h : findPending pending job = none) :
    jobKey job.job ∉ pending.map rowKey := by
  unfold findPending at h
  split at h
  · contradiction
  · rename_i c hc
    rw [jobKey_job hc]
    exact unmatched_of_getLast? h

/-- Jobs of different pairs update different rows. -/
theorem Ready.ne_of_mem (hr : Ready text pending (job :: jobs) w) {job' : Hash} {r r' : Row}
    (hjob' : job' ∈ jobs) (hfind : findPending pending job = some r)
    (hfind' : findPending pending job' = some r')
    (hu : ∀ r ∈ pending, ∀ s ∈ pending, r.jid = s.jid → r = s) : r'.jid ≠ r.jid := by
  intro heq
  obtain ⟨hr₁, hkey⟩ := findPending_some hfind
  obtain ⟨hr₂, hkey'⟩ := findPending_some hfind'
  obtain rfl := hu r' hr₂ r hr₁ heq
  refine (List.nodup_cons.mp hr.distinct).1 ?_
  show jobKey job.job ∈ _
  rw [← hkey, hkey']
  exact List.mem_map_of_mem (f := fun job : Hash => jobKey job.job) hjob'

theorem Ready.step (hr : Ready text pending (job :: jobs) w)
    (h : touchOne sqlite p now host pending w job = .ok w₁) : Ready text pending jobs w₁ := by
  refine ⟨fun j hj => hr.stdin j (List.mem_cons_of_mem _ hj), (List.nodup_cons.mp hr.distinct).2,
    fun j hj => hr.paired j (List.mem_cons_of_mem _ hj), fun r hmem => ?_⟩
  have hjobs := touchOne_jobs h
  have hc : job.get "command" ≠ none := by
    unfold touchOne at h
    split at h
    · cases h
    · assumption
  have hq : jobKey job.job ∈ pending.map rowKey → PairedValues job.job := by
    intro hmem
    cases hfind : findPending pending job with
    | some r => exact hr.paired job List.mem_cons_self r hfind
    | none => exact absurd hmem (findPending_none hc hfind)
  obtain ⟨db', hok, -, hkept⟩ := @touchOne_ok sqlite now host pending job.job
    (Option.isSome_iff_ne_none.mpr hc) hq w.jobs
  obtain rfl := Except.ok.inj (hok.symm.trans hjobs)
  obtain ⟨s, hs, hsr⟩ := hr.kept r hmem
  obtain ⟨s', hs', hs'r⟩ := hkept s hs
  exact ⟨s', hs', hs'r.trans hsr⟩

/-- **One round of the loop is one turn of the user's file.** -/
theorem touchOne_files (hu : UserFile p text) (hr : Ready text pending (job :: jobs) w)
    (hc : w.tree (expandPath p.cwd text) = some (.file c))
    (h : touchOne sqlite p now host pending w job = .ok w₁) :
    (∃ r, findPending pending job = some r ∧
      Turned p text r.jid (Turn.after c (.update (stdinFound p w.tree r))) w.tree w₁.tree ∧
      w₁.jobs.rows.map Row.jid = w.jobs.rows.map Row.jid) ∨
    (findPending pending job = none ∧ Turned p text (w.jobs.maxJid + 1) c w.tree w₁.tree ∧
      w₁.jobs.rows.map Row.jid = w.jobs.rows.map Row.jid ++ [w.jobs.maxJid + 1]) := by
  have hstdin := hr.stdin job List.mem_cons_self
  unfold touchOne at h
  split at h
  · cases h
  split at h
  · rename_i r hfind
    exact Or.inl ⟨r, hfind, updateJob_turned hu hstdin (hr.paired job List.mem_cons_self r hfind) hc
      (hr.kept r (findPending_some hfind).1) h⟩
  · rename_i hfind
    exact Or.inr ⟨hfind, submit_turned hu hstdin hc h⟩

/-- **The batch leaves the stdin of any other job alone**, and deletes no job.  Induction on the
    batch; the content of the user's file is another one at each step. -/
theorem touchLoop_other (hu : UserFile p text) {n : Nat} : ∀ {jobs : List Hash} {w : World} {c : String},
    Ready text pending jobs w → w.tree (expandPath p.cwd text) = some (.file c) →
    jobs.foldlM (touchOne sqlite p now host pending) w = .ok w' →
    n ∈ w.jobs.rows.map Row.jid →
    (∀ job ∈ jobs, ∀ r, findPending pending job = some r → r.jid ≠ n) →
    w'.tree (standardIn4 p n) = w.tree (standardIn4 p n) ∧ n ∈ w'.jobs.rows.map Row.jid
  | [], w, _, _, _, h, hn, _ => by
    cases h
    exact ⟨rfl, hn⟩
  | job :: jobs, w, c, hr, hc, h, hn, hne => by
    rw [List.foldlM_cons] at h
    obtain ⟨w₁, hone, h⟩ := bind_eq_ok.mp h
    have hrest : ∀ job' ∈ jobs, ∀ r, findPending pending job' = some r → r.jid ≠ n :=
      fun job' hjob' => hne job' (List.mem_cons_of_mem job hjob')
    rcases touchOne_files hu hr hc hone with ⟨r, hfind, hturn, hjids⟩ | ⟨-, hturn, hjids⟩
    · obtain ⟨htree, hmem⟩ := touchLoop_other hu (hr.step hone) hturn.user h (hjids ▸ hn) hrest
      exact ⟨htree.trans (hturn.other n (hne job List.mem_cons_self r hfind).symm), hmem⟩
    · have hle : n ≤ w.jobs.maxJid := by
        obtain ⟨s, hs, rfl⟩ := List.mem_map.mp hn
        exact Jobs.jid_le_maxJid hs
      obtain ⟨htree, hmem⟩ := touchLoop_other hu (hr.step hone) hturn.user h
        (hjids ▸ List.mem_append_left _ hn) hrest
      exact ⟨htree.trans (hturn.other n (by omega)), hmem⟩

/-- The job of an update gets its due, and so do the others. -/
theorem fed_cons_update {before : Tree} {r : Row} (hfind : findPending pending job = some r)
    (hown : w'.tree (standardIn4 p r.jid) = some (.file c))
    (hjids : w₁.jobs.rows.map Row.jid = w.jobs.rows.map Row.jid) :
    Fed p text U before pending (job :: jobs) w w' ↔
      c = (stdinFound p before r).getD "" ++ U ∧ Fed p text U before pending jobs w₁ w' := by
  constructor
  · rintro ⟨hup, hsub, huser⟩
    have hdue := hup job List.mem_cons_self r hfind
    rw [hown] at hdue
    refine ⟨Entry.file.inj (Option.some.inj hdue),
      fun job' hjob' => hup job' (List.mem_cons_of_mem job hjob'), ?_, huser⟩
    rw [hjids]
    exact hsub
  · rintro ⟨rfl, hup, hsub, huser⟩
    refine ⟨fun job' hjob' r' hfind' => ?_, hjids ▸ hsub, huser⟩
    rcases List.mem_cons.mp hjob' with rfl | hjob'
    · obtain rfl := Option.some.inj (hfind.symm.trans hfind')
      exact hown
    · exact hup job' hjob' r' hfind'

/-- So it is for a submission. -/
theorem fed_cons_submit {before : Tree} {m : Nat} (hfind : findPending pending job = none)
    (hown : w'.tree (standardIn4 p m) = some (.file c)) (hm : m ∈ w'.jobs.rows.map Row.jid)
    (hnew : m ∉ w.jobs.rows.map Row.jid)
    (hjids : w₁.jobs.rows.map Row.jid = w.jobs.rows.map Row.jid ++ [m]) :
    Fed p text U before pending (job :: jobs) w w' ↔
      c = U ∧ Fed p text U before pending jobs w₁ w' := by
  constructor
  · rintro ⟨hup, hsub, huser⟩
    obtain ⟨s, hs, rfl⟩ := List.mem_map.mp hm
    have hdue := hsub s hs hnew
    rw [hown] at hdue
    refine ⟨Entry.file.inj (Option.some.inj hdue),
      fun job' hjob' => hup job' (List.mem_cons_of_mem job hjob'), fun s' hs' hnot => ?_, huser⟩
    refine hsub s' hs' fun hmem => hnot ?_
    rw [hjids]
    exact List.mem_append_left _ hmem
  · rintro ⟨rfl, hup, hsub, huser⟩
    refine ⟨fun job' hjob' r' hfind' => ?_, fun s hs hnot => ?_, huser⟩
    · rcases List.mem_cons.mp hjob' with rfl | hjob'
      · cases hfind.symm.trans hfind'
      · exact hup job' hjob' r' hfind'
    · by_cases hs' : s.jid = m
      · rw [hs']
        exact hown
      · refine hsub s hs ?_
        rw [hjids, List.mem_append, List.mem_singleton]
        exact not_or.mpr ⟨hnot, hs'⟩

/-- **The batch feeds every job exactly when its turns do.**  Induction on the batch: what a turn
    gives its job, no later one takes away. -/
theorem touchLoop_fed_iff (hu : UserFile p text) {before : Tree}
    (hp : ∀ r ∈ pending, ∀ s ∈ pending, r.jid = s.jid → r = s) : ∀ {jobs : List Hash} {w : World}
    {c : String}, Ready text pending jobs w → w.tree (expandPath p.cwd text) = some (.file c) →
    jobs.foldlM (touchOne sqlite p now host pending) w = .ok w' →
    (∀ job ∈ jobs, ∀ r, findPending pending job = some r →
      w.tree (standardIn4 p r.jid) = before (standardIn4 p r.jid)) →
    (Fed p text U before pending jobs w w' ↔ Appends U c (jobs.map (turnOf p before pending)))
  | [], w, c, _, hc, h, _ => by
    cases h
    constructor
    · intro hfed
      have huser := hfed.user
      rw [hc] at huser
      simpa [Appends] using huser
    · intro happ
      have happ : c = U := happ
      subst happ
      exact ⟨fun _ hjob => absurd hjob List.not_mem_nil,
        fun s hs hnew => absurd (List.mem_map_of_mem hs) hnew, hc⟩
  | job :: jobs, w, c, hr, hc, h, hsame => by
    rw [List.foldlM_cons] at h
    obtain ⟨w₁, hone, h⟩ := bind_eq_ok.mp h
    have hready := hr.step hone
    rcases touchOne_files hu hr hc hone with ⟨r, hfind, hturn, hjids⟩ | ⟨hfind, hturn, hjids⟩
    · have hfound : stdinFound p w.tree r = stdinFound p before r := by
        unfold stdinFound
        rw [hsame job List.mem_cons_self r hfind]
      rw [hfound] at hturn
      have hne : ∀ job' ∈ jobs, ∀ r', findPending pending job' = some r' → r'.jid ≠ r.jid :=
        fun job' hjob' r' hfind' => hr.ne_of_mem hjob' hfind hfind' hp
      have hmem : r.jid ∈ w₁.jobs.rows.map Row.jid := by
        obtain ⟨s, hs, hsr⟩ := hready.kept r (findPending_some hfind).1
        exact hsr ▸ List.mem_map_of_mem (List.mem_of_mem_filter hs)
      have hown := (touchLoop_other hu hready hturn.user h hmem hne).1.trans hturn.stdin
      have ih := @touchLoop_fed_iff hu before hp jobs w₁ _ hready hturn.user h
        fun job' hjob' r' hfind' => (hturn.other r'.jid (hne job' hjob' r' hfind')).trans
          (hsame job' (List.mem_cons_of_mem job hjob') r' hfind')
      have hturnOf : turnOf p before pending job = .update (stdinFound p before r) := by
        unfold turnOf
        rw [hfind]
      rw [List.map_cons, hturnOf, Appends, ← ih]
      exact fed_cons_update hfind hown hjids
    · have hnew : w.jobs.maxJid + 1 ∉ w.jobs.rows.map Row.jid := by
        intro hmem
        obtain ⟨s, hs, heq⟩ := List.mem_map.mp hmem
        have := Jobs.jid_le_maxJid hs
        omega
      have hne : ∀ job' ∈ jobs, ∀ r', findPending pending job' = some r' →
          r'.jid ≠ w.jobs.maxJid + 1 := by
        intro job' _ r' hfind' heq
        obtain ⟨s, hs, hsr⟩ := hr.kept r' (findPending_some hfind').1
        exact hnew (heq ▸ hsr ▸ List.mem_map_of_mem (List.mem_of_mem_filter hs))
      have hmem : w.jobs.maxJid + 1 ∈ w₁.jobs.rows.map Row.jid := by
        rw [hjids]
        exact List.mem_append_right _ List.mem_cons_self
      obtain ⟨hother, hm⟩ := touchLoop_other hu hready hturn.user h hmem hne
      have ih := @touchLoop_fed_iff hu before hp jobs w₁ _ hready hturn.user h
        fun job' hjob' r' hfind' => (hturn.other r'.jid (hne job' hjob' r' hfind')).trans
          (hsame job' (List.mem_cons_of_mem job hjob') r' hfind')
      have hturnOf : turnOf p before pending job = .submit := by
        unfold turnOf
        rw [hfind]
      rw [List.map_cons, hturnOf, Appends]
      show _ ↔ c = U ∧ Appends U c (jobs.map (turnOf p before pending))
      rw [← ih]
      exact fed_cons_submit hfind (hother.trans hturn.stdin) hm hnew hjids

end Batch

/-! ## When it returns -/

/-- A file can be written: one is there, or there is a directory to put it into. -/
def Writable (path : Path) (t : Tree) : Prop :=
  t path ≠ some .directory ∧ (t path = none → t path.dropLast = some .directory)

/-- An update finds the files it needs: what it reads is no directory, the file named as stdin can be
    written, and what is written there for the job can be read. -/
structure UpdateServed (p : Place) (r : Row) (job : Hash) (t : Tree) : Prop where
  own : r.stdin.isSome = true → t (standardIn4 p r.jid) ≠ some .directory
  user : ∀ text, job.get "stdin" = some text → Writable (expandPath p.cwd text) t ∧
    StdinThere p (some text) (write (expandPath p.cwd text) "" t)

/-- A round of the loop finds the files it needs. -/
def Served (p : Place) (pending : List Row) (job : Hash) (w : World) : Prop :=
  match findPending pending job with
  | some r => UpdateServed p r job w.tree
  | none => Supplied p (w.jobs.maxJid + 1) job w

/-- Each job of a batch is served when its turn comes. -/
def AllServed (sqlite : OtherSql) (p : Place) (now host : String) (pending : List Row) :
    List Hash → World → Prop
  | [], _ => True
  | job :: jobs, w => Served p pending job w ∧
      ∀ w₁, touchOne sqlite p now host pending w job = .ok w₁ →
        AllServed sqlite p now host pending jobs w₁

section Returns

variable {sqlite : OtherSql} {p : Place} {now host : String} {pending : List Row} {job : Hash}
  {jobs : List Hash} {w : World}

theorem readIfThere_ok_iff {path : Path} {t : Tree} :
    (∃ content, readIfThere path t = .ok content) ↔ t path ≠ some .directory := by
  unfold readIfThere
  cases t path with
  | none => simp
  | some entry => cases entry <;> simp

theorem openWrite_ok {path : Path} {t : Tree} (h : Writable path t) (content : String) :
    openWrite path content t = .ok (write path content t) := by
  obtain ⟨hdir, hparent⟩ := h
  unfold openWrite
  cases hpath : t path with
  | none => rw [hparent hpath]; rfl
  | some entry =>
    cases entry with
    | directory => exact absurd hpath hdir
    | file content => rfl

theorem writable_of_openWrite {path : Path} {content : String} {t t' : Tree}
    (h : openWrite path content t = .ok t') : Writable path t ∧ t' = write path content t := by
  unfold openWrite at h
  split at h
  · cases h
  · rename_i c hpath
    refine ⟨⟨by simp [hpath], fun hnone => ?_⟩, (Except.ok.inj h).symm⟩
    rw [hpath] at hnone
    cases hnone
  · rename_i hpath
    split at h
    · rename_i hparent
      exact ⟨⟨by simp [hpath], fun _ => hparent⟩, (Except.ok.inj h).symm⟩
    · cases h

/-- Whether a stdin is there does not depend on what is in it. -/
theorem stdinThere_write {text : String} {path : Path} {c d : String} {t : Tree}
    (h : StdinThere p (some text) (write path c t)) : StdinThere p (some text) (write path d t) := by
  intro text' htext
  rcases h text' htext with hempty | hdash | ⟨content, hcontent⟩
  · exact Or.inl hempty
  · exact Or.inr (Or.inl hdash)
  · refine Or.inr (Or.inr ?_)
    by_cases hpath : stdinPath p text' = path
    · rw [hpath]
      exact ⟨d, write_self path d t⟩
    · rw [write_ne hpath] at hcontent ⊢
      exact ⟨content, hcontent⟩

theorem pbuf_ok_iff {r : Row} {t : Tree} : (∃ found, pbuf p r t = .ok found) ↔
    (r.stdin.isSome = true → t (standardIn4 p r.jid) ≠ some .directory) := by
  unfold pbuf
  by_cases h : r.stdin.isSome = true
  · rw [if_pos h, readIfThere_ok_iff]
    exact ⟨fun hne _ => hne, fun hne => hne h⟩
  · rw [if_neg h]
    exact ⟨fun _ hsome => absurd hsome h, fun _ => ⟨_, rfl⟩⟩

/-- The statement of an update goes through. -/
theorem updateWith_ok (hq : PairedValues job.job) (ts : Option String) (jid : Nat) (w : World) :
    ∃ w', updateWith sqlite p (touchKvs job.job) ts jid w = .ok w' := by
  unfold updateWith
  rw [update_touch hq]
  exact ⟨_, rfl⟩

theorem updateJob_ok_iff {r : Row} (hq : PairedValues job.job) :
    (∃ w', updateJob sqlite p r job w = .ok w') ↔ UpdateServed p r job w.tree := by
  unfold updateJob
  cases hstdin : job.get "stdin" with
  | none =>
    dsimp only
    have hserved : UpdateServed p r job w.tree ↔ ∃ found, pbuf p r w.tree = .ok found := by
      rw [pbuf_ok_iff]
      refine ⟨fun h => h.own, fun h => ⟨h, fun text htext => ?_⟩⟩
      rw [hstdin] at htext
      cases htext
    rw [hserved]
    constructor
    · rintro ⟨w', h⟩
      split at h
      · obtain ⟨found, hfound, -⟩ := bind_eq_ok.mp h
        exact ⟨found, hfound⟩
      · rename_i hnone
        exact pbuf_ok_iff.mpr fun hsome => absurd hsome hnone
    · rintro ⟨found, hfound⟩
      split
      · rw [hfound]
        exact updateWith_ok hq _ _ _
      · exact updateWith_ok hq _ _ _
  | some text =>
    dsimp only
    constructor
    · rintro ⟨w', h⟩
      obtain ⟨found, hfound, h⟩ := bind_eq_ok.mp h
      obtain ⟨ubuf, -, h⟩ := bind_eq_ok.mp h
      obtain ⟨tree, htree, h⟩ := bind_eq_ok.mp h
      obtain ⟨⟨ts, w₁⟩, hts, -⟩ := bind_eq_ok.mp h
      obtain ⟨hwritable, rfl⟩ := writable_of_openWrite htree
      refine ⟨pbuf_ok_iff.mp ⟨found, hfound⟩, fun text' htext => ?_⟩
      obtain rfl := Option.some.inj (hstdin.symm.trans htext)
      exact ⟨hwritable, stdinThere_write (tmpStdin_ok_iff.mp ⟨_, hts⟩)⟩
    · rintro ⟨hown, huser⟩
      obtain ⟨hwritable, hthere⟩ := huser text hstdin
      obtain ⟨found, hfound⟩ := pbuf_ok_iff.mpr hown
      obtain ⟨ubuf, hubuf⟩ := readIfThere_ok_iff.mpr hwritable.1
      have hts := fun c => @tmpStdin_ok_iff p (some text)
        { w with tree := write (expandPath p.cwd text) c w.tree }
      obtain ⟨⟨ts, w₁⟩, hts⟩ := (hts (written found ubuf)).mpr (stdinThere_write hthere)
      rw [hfound, hubuf]
      simp only [bind, Except.bind, openWrite_ok hwritable, hts]
      exact updateWith_ok hq ts r.jid w₁

/-- **When a round of the loop succeeds.** -/
theorem touchOne_ok_iff (hc : job.get "command" ≠ none)
    (hq : ∀ r, findPending pending job = some r → PairedValues job.job) :
    (∃ w', touchOne sqlite p now host pending w job = .ok w') ↔ Served p pending job w := by
  unfold touchOne Served
  rw [if_neg hc]
  cases hfind : findPending pending job with
  | some r => exact updateJob_ok_iff (hq r hfind)
  | none =>
    show (∃ w', JobFiles.submit p now host [job] w = .ok w') ↔ _
    unfold JobFiles.submit
    rw [submitFrom_ok_iff]
    constructor
    · rintro ⟨-, hsupplied, -⟩
      exact hsupplied
    · intro h
      exact ⟨fun j hj => List.mem_singleton.mp hj ▸ hc, h, fun _ _ => trivial⟩

/-- Induction on the batch. -/
theorem touchLoop_ok_iff : ∀ {jobs : List Hash} {w : World},
    (∀ job ∈ jobs, job.get "command" ≠ none) →
    (∀ job ∈ jobs, ∀ r, findPending pending job = some r → PairedValues job.job) →
    ((∃ w', jobs.foldlM (touchOne sqlite p now host pending) w = .ok w') ↔
      AllServed sqlite p now host pending jobs w)
  | [], w, _, _ => ⟨fun _ => trivial, fun _ => ⟨w, rfl⟩⟩
  | job :: jobs, w, hc, hq => by
    have hone := @touchOne_ok_iff sqlite p now host pending job w (hc job List.mem_cons_self)
      (hq job List.mem_cons_self)
    have hrest := fun w₁ => @touchLoop_ok_iff jobs w₁
      (fun j hj => hc j (List.mem_cons_of_mem job hj)) fun j hj => hq j (List.mem_cons_of_mem job hj)
    rw [List.foldlM_cons]
    constructor
    · rintro ⟨w', h⟩
      obtain ⟨w₁, hw₁, h⟩ := bind_eq_ok.mp h
      refine ⟨hone.mp ⟨w₁, hw₁⟩, fun w₂ hw₂ => ?_⟩
      obtain rfl := Except.ok.inj (hw₁.symm.trans hw₂)
      exact (hrest w₁).mp ⟨w', h⟩
    · rintro ⟨hserved, hall⟩
      obtain ⟨w₁, hw₁⟩ := hone.mpr hserved
      obtain ⟨w', h⟩ := (hrest w₁).mpr (hall w₁ hw₁)
      rw [hw₁]
      exact ⟨w', h⟩

end Returns

/-! ## When it leaves one pending job of each kind -/

/-- The jobs of the batch, as the table sees them. -/
def tableJobs (opts : Options) (jobs : List Hash) : List JobHash := (jobs.map (stamp opts)).map Hash.job

/-- The quotes in the values a touch splices into an update are paired. -/
def PairedUpdates (opts : Options) (jobs : List Hash) (db : Jobs) : Prop :=
  ∀ job ∈ jobs.map (stamp opts), ∀ r, findPending (pendingRows db) job = some r →
    PairedValues job.job

/-- **When a touch returns.** -/
theorem touch_ok_iff {sqlite : OtherSql} {p : Place} {now host : String} {opts : Options}
    {jobs : List Hash} {w : World} (hd : ∀ r ∈ pendingRows w.jobs, r.command.isSome)
    (hc : ∀ job ∈ jobs, job.get "command" ≠ none) (hq : PairedUpdates opts jobs w.jobs) :
    (∃ w', touch sqlite p now host opts jobs w = .ok w') ↔
      AllServed sqlite p now host (pendingRows w.jobs) (jobs.map (stamp opts)) w := by
  have hnone : (pendingRows w.jobs).any (·.command.isNone) = false := by
    rw [List.any_eq_false]
    intro r hr hnone
    rw [Option.isNone_iff_eq_none] at hnone
    have hsome := hd r hr
    rw [hnone] at hsome
    cases hsome
  have hcommands : ∀ job ∈ jobs.map (stamp opts), job.get "command" ≠ none := by
    rw [List.forall_mem_map]
    intro job hjob
    have heq : (stamp opts job).get "command" = job.get "command" := stamp_command opts job
    rw [heq]
    exact hc job hjob
  unfold touch
  rw [list_pending]
  dsimp only
  rw [hnone, if_neg Bool.false_ne_true]
  exact touchLoop_ok_iff hcommands hq

/-- `rq q touch` with these commands as its input, and no files anywhere. -/
def touchCommands (commands : List String) (db : Jobs) : Except String World :=
  touch (fun _ _ => .error "SQL error") ⟨["q"], ["home"]⟩ "2005-07-01" "node1" {}
    (commands.map fun c => Hash.set [] "command" (some c)) ⟨db, fun _ => none, ""⟩

/-- The jobs of these commands, stamped. -/
def commandJobs (commands : List String) : List Hash :=
  (commands.map fun c => Hash.set [] "command" (some c)).map (stamp {})

/-- `rq q touch --stdin=in date` in the user's directory, where `in` reads `b`, with one pending job
    of that command and these files in the queue. -/
def oneJobWith (files : List (Path × Entry)) : World :=
  ⟨Update.oneJob, fun path => ((["home", "in"], Entry.file "b") :: files).lookup path, ""⟩

def touchIn (files : List (Path × Entry)) : Except String World :=
  touch (fun _ _ => .error "SQL error") ⟨["q"], ["home"]⟩ "2005-07-04" "node1"
    { jobStdin := some "in" } [Hash.set [] "command" (some "date")] (oneJobWith files)

/-- What that touch owes. -/
def FedIn (files : List (Path × Entry)) (w' : World) : Prop :=
  Fed ⟨["q"], ["home"]⟩ "in" "b" (oneJobWith files).tree (pendingRows Update.oneJob)
    ([Hash.set [] "command" (some "date")].map (stamp { jobStdin := some "in" })) (oneJobWith files) w'

theorem userFile_in : UserFile ⟨["q"], ["home"]⟩ "in" := by
  refine ⟨by decide, by decide, fun n path hpath hprefix => ?_⟩
  obtain ⟨dir, -, rfl⟩ := mem_jobPaths.mp hpath
  have hin : expandPath ["home"] "in" = ["home", "in"] := by decide
  rw [show (Place.mk ["q"] ["home"]).cwd = ["home"] from rfl, hin] at hprefix
  simp at hprefix

end RubyQueue.Toucher
