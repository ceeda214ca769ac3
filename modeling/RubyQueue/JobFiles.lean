/-
  `JobQueue#submit` with the files of the jobs.

  A job has a stdin, a stdout, a stderr and a data directory under the queue, named by its jid.
  `submit` removes what is left of an earlier job of that jid, writes the job's stdin and copies its
  data.  The two are found by different rules: a stdin that reads `stdin/5` is taken from the
  queue, any other stdin and every data from the current directory.

  * `submitFrom_jobs`   — the table is the one `JobQueue.submit` makes, files or no files;
  * `submitFrom_ok_iff` — the submission succeeds when each job has a command and is `Supplied`;
  * `jobPaths_apart`    — the files of a new job are those of no job in the queue;
  * `jobPaths_source`   — and a directory beside them has its source beside them.

  What a raise leaves of the files is not modelled: the transaction takes the rows back.
-/
import RubyQueue.Base.FileTree
import RubyQueue.Base.Raise
import RubyQueue.Listing

namespace RubyQueue.JobFiles

open RubyQueue.Sqlite RubyQueue.Quote RubyQueue.JobQueue RubyQueue.Submitter RubyQueue.FileTree
open RubyQueue.Raise
open RubyQueue.Listing (lines_of_not_mem)

/-! ## Where things are -/

/-- The queue, and the directory the process is in. -/
structure Place where
  queue : Path
  cwd : Path

/-- The table, the files, and what is left to read of STDIN. -/
structure World where
  jobs : Jobs
  tree : Tree
  input : String

/-- `File::expand_path(File::join(path, text))`. -/
def inQueue (p : Place) (text : String) : Path := walk p.queue (names text)

def standardIn4 (p : Place) (jid : Nat) : Path := inQueue p (stdin4 jid)
def standardOut4 (p : Place) (jid : Nat) : Path := inQueue p (stdout4 jid)
def standardErr4 (p : Place) (jid : Nat) : Path := inQueue p (stderr4 jid)
def data_4 (p : Place) (jid : Nat) : Path := inQueue p (data4 jid)

/-! ## `tmp_stdin` -/

/-- A line without the `@` it may start with. -/
def dropAt (line : Text) : Text := if line.head? = some '@' then line.drop 1 else line

/-- `%r|^@?stdin/\d+$|` on one line. -/
def namesStdin (line : Text) : Bool :=
  (dropAt line).take 6 == "stdin/".toList && allDigits ((dropAt line).drop 6)

/-- The path a stdin means: one that looks like a job's is in the queue. -/
def stdinPath (p : Place) (text : String) : Path :=
  if (lines text.toList).any namesStdin then
    inQueue p (String.ofList (List.intercalate ['\n'] ((lines text.toList).map dropAt)))
  else expandPath p.cwd text

/-- `JobQueue#tmp_stdin`: the content of the temporary file, if there is one. -/
def tmpStdin (p : Place) (stdin : Option String) (w : World) :
    Except String (Option String × World) :=
  match stdin with
  | none => .ok (none, w)
  | some text =>
    if text = "" then .ok (none, w)
    else if text = "-" then .ok (some w.input, { w with input := "" })
    else
      match w.tree (stdinPath p text) with
      | some (.file content) => .ok (some content, w)
      | _ => .error "No such file or directory"

/-! ## `submit` -/

/-- The four paths of a job. -/
def jobPaths (p : Place) (jid : Nat) : List Path :=
  [standardIn4 p jid, standardOut4 p jid, standardErr4 p jid, data_4 p jid]

/-- `FileUtils::cp ts.path, standard_in_4(jid) if ts`. -/
def copyStdin (p : Place) (jid : Nat) (ts : Option String) (t : Tree) : Tree :=
  match ts with
  | some content => write (standardIn4 p jid) content t
  | none => t

/-- `cp_r data, data_4(jid)`, or `mkdir_p data_4(jid)`. -/
def copyData (p : Place) (jid : Nat) (data : Option String) (t : Tree) : Except String Tree :=
  match data with
  | none => .ok (mkdirP (data_4 p jid) t)
  | some text =>
    match if text = "" then none else cpR (expandPath p.cwd text) (data_4 p jid) t with
    | some t => .ok t
    | none => .error "No such file or directory"

/-- One round of the loop of `submit`. -/
def submitOne (p : Place) (now host : String) (jid : Nat) (job : Hash) (w : World) :
    Except String World :=
  if job.get "command" = none then .error "no command for job"
  else do
    let (ts, w) ← tmpStdin p (job.get "stdin") w
    let jobs ← JobQueue.submitOne now host jid job.job w.jobs
    let tree ← copyData p jid (job.get "data") (copyStdin p jid ts (rmAll (jobPaths p jid) w.tree))
    .ok { w with jobs := jobs, tree := tree }

/-- The loop of `submit`. -/
def submitFrom (p : Place) (now host : String) : Nat → List Hash → World → Except String World
  | _, [], w => .ok w
  | jid, job :: jobs, w => do
    let w ← submitOne p now host jid job w
    submitFrom p now host (jid + 1) jobs w

/-- `JobQueue#submit`. -/
def submit (p : Place) (now host : String) (jobs : List Hash) (w : World) : Except String World :=
  submitFrom p now host (w.jobs.maxJid + 1) jobs w

/-! ## The table -/

/-- Reading a stdin changes neither the table nor the files. -/
theorem tmpStdin_same {p : Place} {stdin ts : Option String} {w w' : World}
    (h : tmpStdin p stdin w = .ok (ts, w')) : w'.jobs = w.jobs ∧ w'.tree = w.tree := by
  unfold tmpStdin at h
  split at h
  · cases h
    exact ⟨rfl, rfl⟩
  split at h
  · cases h
    exact ⟨rfl, rfl⟩
  split at h
  · cases h
    exact ⟨rfl, rfl⟩
  split at h
  · cases h
    exact ⟨rfl, rfl⟩
  · cases h

theorem tmpStdin_jobs {p : Place} {stdin ts : Option String} {w w' : World}
    (h : tmpStdin p stdin w = .ok (ts, w')) : w'.jobs = w.jobs := (tmpStdin_same h).1

theorem tmpStdin_tree {p : Place} {stdin ts : Option String} {w w' : World}
    (h : tmpStdin p stdin w = .ok (ts, w')) : w'.tree = w.tree := (tmpStdin_same h).2

theorem submitOne_jobs {p : Place} {now host : String} {jid : Nat} {job : Hash} {w w' : World}
    (h : submitOne p now host jid job w = .ok w') :
    JobQueue.submitOne now host jid job.job w.jobs = .ok w'.jobs := by
  unfold submitOne at h
  split at h
  · cases h
  obtain ⟨⟨ts, w₁⟩, hts, h⟩ := bind_eq_ok.mp h
  obtain ⟨jobs, hjobs, h⟩ := bind_eq_ok.mp h
  obtain ⟨tree, -, h⟩ := bind_eq_ok.mp h
  cases h
  rw [← tmpStdin_jobs hts]
  exact hjobs

/-- **The rows of a submission are those of `JobQueue.submit`.** -/
theorem submitFrom_jobs {p : Place} {now host : String} : ∀ {jobs : List Hash} {jid : Nat}
    {w w' : World}, submitFrom p now host jid jobs w = .ok w' →
    JobQueue.submitFrom now host jid (jobs.map Hash.job) w.jobs = .ok w'.jobs
  | [], _, _, _, h => by
    cases h
    rfl
  | job :: jobs, jid, w, w', h => by
    unfold submitFrom at h
    obtain ⟨w₁, hone, h⟩ := bind_eq_ok.mp h
    rw [List.map_cons, JobQueue.submitFrom, submitOne_jobs hone]
    exact submitFrom_jobs h

/-! ## Paths -/

/-- A numeral is none of the names the code uses. -/
theorem toString_ne {n : Nat} {name : String} (h : allDigits name.toList = false) :
    toString n ≠ name := by
  intro heq
  have hdigits := allDigits_toString n
  rw [heq, h] at hdigits
  cases hdigits

/-- A path of a job, seen from any directory. -/
theorem walk_path {dir : String} (h : '/' ∉ dir.toList ∧ dir ≠ "" ∧ dir ≠ "." ∧ dir ≠ "..")
    (base : Path) (n : Nat) :
    walk base (names (dir ++ "/" ++ toString n)) = base ++ [dir, toString n] := by
  have hnames : names (dir ++ "/" ++ toString n) = [dir, toString n] := by
    have hslash : '/' ∉ (toString n).toList := not_mem_toString (by decide) n
    have htext : (dir ++ "/" ++ toString n).toList = dir.toList ++ '/' :: (toString n).toList := by
      simp
    unfold names
    rw [htext, List.splitOn_append_cons_self, List.splitOn_eq_singleton h.1,
      List.splitOn_eq_singleton hslash]
    simp only [List.cons_append, List.nil_append, List.map_cons, List.map_nil, String.ofList_toList]
  rw [hnames]
  refine walk_plain base ?_
  intro m hm
  rcases List.mem_cons.mp hm with rfl | hm
  · exact h.2
  · rw [List.mem_singleton.mp hm]
    exact ⟨toString_ne (by decide), toString_ne (by decide), toString_ne (by decide)⟩

/-- The directories of the queue. -/
def directories : List String := ["stdin", "stdout", "stderr", "data"]

theorem walk_directory {dir : String} (h : dir ∈ directories) (base : Path) (n : Nat) :
    walk base (names (dir ++ "/" ++ toString n)) = base ++ [dir, toString n] := by
  have hall : ∀ dir ∈ directories, '/' ∉ dir.toList ∧ dir ≠ "" ∧ dir ≠ "." ∧ dir ≠ ".." := by decide
  exact walk_path (hall dir h) base n

theorem standardIn4_eq (p : Place) (jid : Nat) :
    standardIn4 p jid = p.queue ++ ["stdin", toString jid] :=
  @walk_directory "stdin" (by decide) p.queue jid

theorem data_4_eq (p : Place) (jid : Nat) : data_4 p jid = p.queue ++ ["data", toString jid] :=
  @walk_directory "data" (by decide) p.queue jid

theorem mem_jobPaths {p : Place} {jid : Nat} {path : Path} :
    path ∈ jobPaths p jid ↔ ∃ dir ∈ directories, path = p.queue ++ [dir, toString jid] := by
  have hpaths : jobPaths p jid = directories.map fun dir => p.queue ++ [dir, toString jid] := by
    have hout : standardOut4 p jid = p.queue ++ ["stdout", toString jid] :=
      @walk_directory "stdout" (by decide) p.queue jid
    have herr : standardErr4 p jid = p.queue ++ ["stderr", toString jid] :=
      @walk_directory "stderr" (by decide) p.queue jid
    unfold jobPaths
    rw [standardIn4_eq, hout, herr, data_4_eq]
    rfl
  rw [hpaths, List.mem_map]
  exact exists_congr fun dir => and_congr_right fun _ => eq_comm

/-- The stdin of a job is looked up in the queue. -/
theorem stdinPath_stdin4 (p : Place) (n : Nat) : stdinPath p (stdin4 n) = standardIn4 p n := by
  have htext : (stdin4 n).toList = "stdin/".toList ++ (toString n).toList := String.toList_append
  have hnl : '\n' ∉ (stdin4 n).toList := not_mem_path (by decide) (by decide) n
  have hat : dropAt (stdin4 n).toList = (stdin4 n).toList := by
    rw [htext]
    rfl
  have hnames : namesStdin (stdin4 n).toList = true := by
    unfold namesStdin
    rw [hat, htext]
    exact allDigits_toString n
  unfold stdinPath
  rw [lines_of_not_mem hnl, List.any_cons, hnames, Bool.true_or, if_pos rfl, List.map_singleton, hat,
    List.intercalate_singleton, String.ofList_toList]
  rfl

theorem tmpStdin_stdin4 (p : Place) (n : Nat) (w : World) :
    tmpStdin p (some (stdin4 n)) w =
      match w.tree (standardIn4 p n) with
      | some (.file content) => .ok (some content, w)
      | _ => .error "No such file or directory" := by
  have hhead : ∀ s : String, s.toList.head? ≠ some 's' → stdin4 n ≠ s := by
    rintro s hs rfl
    exact hs (by simp [stdin4])
  unfold tmpStdin
  dsimp only
  rw [if_neg (hhead "" (by decide)), if_neg (hhead "-" (by decide)), stdinPath_stdin4]

/-- **Jobs of different jids have no path in common**, and none behind one another's. -/
theorem jobPaths_apart {p : Place} {m n : Nat} (h : m ≠ n) {path : Path}
    (hpath : path ∈ jobPaths p m) (dir : String) (rel : Path) :
    ¬ path <+: p.queue ++ [dir, toString n] ++ rel := by
  obtain ⟨dir', -, rfl⟩ := mem_jobPaths.mp hpath
  rw [List.append_assoc, List.prefix_append_right_inj]
  intro hprefix
  simp only [List.cons_append, List.cons_prefix_cons] at hprefix
  exact h (toString_inj.mp hprefix.2.1)

/-- Where a listed job's data is taken from. -/
def source (p : Place) (jid : Nat) : Path := expandPath p.cwd (data4 jid)

theorem source_eq (p : Place) (jid : Nat) : source p jid = p.cwd ++ ["data", toString jid] := by
  have hhead : (data4 jid).toList.head? ≠ some '/' := by simp [data4]
  unfold source expandPath
  rw [if_neg hhead]
  exact @walk_directory "data" (by decide) p.cwd jid

/-- A directory outside a new job's has its source outside too. -/
theorem jobPaths_source {p : Place} {m n : Nat} (h : m ≠ n) {path : Path}
    (hpath : path ∈ jobPaths p m) (hcwd : ¬ path <+: p.cwd) : ¬ path <+: source p n := by
  obtain ⟨dir, -, rfl⟩ := mem_jobPaths.mp hpath
  have hlast : (p.queue ++ [dir, toString m]).getLast? = some (toString m) := by simp
  rw [source_eq]
  intro hprefix
  refine hcwd (prefix_of_append_two hprefix ?_ ?_)
  · rw [hlast]
    intro heq
    exact h (toString_inj.mp (Option.some.inj heq))
  · rw [hlast]
    intro heq
    exact toString_ne (by decide) (Option.some.inj heq)

/-- So is all that is in it, unless it is above the queue. -/
theorem jobPaths_behind_source {p : Place} {m n : Nat} (h : m ≠ n) {path : Path}
    (hpath : path ∈ jobPaths p m) (hcwd : ¬ path <+: p.cwd) (hqueue : ¬ source p n <+: p.queue)
    (rel : Path) : ¬ path <+: source p n ++ rel := by
  intro hprefix
  rcases List.prefix_or_prefix_of_prefix hprefix (List.prefix_append _ _) with hp | hp
  · exact jobPaths_source h hpath hcwd hp
  · obtain ⟨dir, hdir, rfl⟩ := mem_jobPaths.mp hpath
    have hdirs : ∀ dir ∈ directories, allDigits dir.toList = false := by decide
    have hlast : (source p n).getLast? = some (toString n) := by
      rw [source_eq]
      simp
    refine hqueue (prefix_of_append_two hp ?_ ?_)
    · rw [hlast]
      intro heq
      exact h (toString_inj.mp (Option.some.inj heq)).symm
    · rw [hlast]
      intro heq
      exact toString_ne (hdirs dir hdir) (Option.some.inj heq)

/-! ## When it succeeds -/

/-- The stdin can be read: none is asked for, or it is there. -/
def StdinThere (p : Place) (stdin : Option String) (t : Tree) : Prop :=
  ∀ text, stdin = some text → text = "" ∨ text = "-" ∨
    ∃ content, t (stdinPath p text) = some (.file content)

/-- The data can be copied: none is asked for, or it is there and not above the place it is to go
    to. -/
def DataThere (p : Place) (jid : Nat) (data : Option String) (t : Tree) : Prop :=
  ∀ text, data = some text → text ≠ "" ∧ t (expandPath p.cwd text) ≠ none ∧
    ¬ expandPath p.cwd text <+: data_4 p jid

/-- The files a job is to be given are there; its data when those of an earlier job of that jid have
    been removed. -/
structure Supplied (p : Place) (jid : Nat) (job : Hash) (w : World) : Prop where
  stdin : StdinThere p (job.get "stdin") w.tree
  data : ∀ ts w₁, tmpStdin p (job.get "stdin") w = .ok (ts, w₁) →
    DataThere p jid (job.get "data") (copyStdin p jid ts (rmAll (jobPaths p jid) w.tree))

/-- Each job of a batch is supplied when its turn comes. -/
def AllSupplied (p : Place) (now host : String) : Nat → List Hash → World → Prop
  | _, [], _ => True
  | jid, job :: jobs, w => Supplied p jid job w ∧
      ∀ w₁, submitOne p now host jid job w = .ok w₁ → AllSupplied p now host (jid + 1) jobs w₁

/-- A job that asks for no files is supplied. -/
theorem supplied_of_none {p : Place} {jid : Nat} {job : Hash} {w : World}
    (h : job.get "stdin" = none ∧ job.get "data" = none) : Supplied p jid job w := by
  refine ⟨fun text htext => ?_, fun _ _ _ text htext => ?_⟩
  · rw [h.1] at htext
    cases htext
  · rw [h.2] at htext
    cases htext

theorem allSupplied_of_none {p : Place} {now host : String} : ∀ {jobs : List Hash} {jid : Nat}
    {w : World}, (∀ job ∈ jobs, job.get "stdin" = none ∧ job.get "data" = none) →
    AllSupplied p now host jid jobs w
  | [], _, _, _ => trivial
  | job :: _, _, _, h =>
    ⟨supplied_of_none (h job List.mem_cons_self), fun _ _ =>
      allSupplied_of_none fun j hj => h j (List.mem_cons_of_mem job hj)⟩

theorem tmpStdin_ok_iff {p : Place} {stdin : Option String} {w : World} :
    (∃ r, tmpStdin p stdin w = .ok r) ↔ StdinThere p stdin w.tree := by
  unfold tmpStdin StdinThere
  cases stdin with
  | none => simp
  | some text =>
    by_cases hempty : text = ""
    · simp [hempty]
    · by_cases hdash : text = "-"
      · simp [hdash]
      · simp only [hempty, hdash, if_false, Option.some.injEq, forall_eq', false_or]
        cases w.tree (stdinPath p text) with
        | none => simp
        | some entry => cases entry <;> simp

/-- A new job's own place is free when its data is copied. -/
theorem data_free {p : Place} {jid : Nat} (ts : Option String) (t : Tree) :
    ∀ x, data_4 p jid <+: x → copyStdin p jid ts (rmAll (jobPaths p jid) t) x = none := by
  intro x hx
  have hdata : data_4 p jid ∈ jobPaths p jid := by simp [jobPaths]
  have hne : x ≠ standardIn4 p jid := by
    rintro rfl
    rw [data_4_eq, standardIn4_eq, List.prefix_append_right_inj] at hx
    simp at hx
  cases ts with
  | none => exact rmAll_under hx hdata
  | some content =>
    show write (standardIn4 p jid) content _ x = none
    rw [write_ne hne]
    exact rmAll_under hx hdata

theorem copyData_ok_iff {p : Place} {jid : Nat} {data : Option String} {t : Tree}
    (hfree : ∀ x, data_4 p jid <+: x → t x = none) :
    (∃ t', copyData p jid data t = .ok t') ↔ DataThere p jid data t := by
  unfold copyData DataThere
  cases data with
  | none => simp
  | some text =>
    by_cases hempty : text = ""
    · simp [hempty]
    · simp only [hempty, if_false, Option.some.injEq, forall_eq', ne_eq, not_false_eq_true, true_and]
      constructor
      · rintro ⟨t', h⟩
        split at h
        · rename_i t₁ hcopy
          obtain ⟨hsrc, hinto, -⟩ := (cpR_eq_some_iff hfree).mp hcopy
          exact ⟨hsrc, hinto⟩
        · cases h
      · rintro ⟨hsrc, hinto⟩
        rw [(cpR_eq_some_iff hfree).mpr ⟨hsrc, hinto, rfl⟩]
        exact ⟨_, rfl⟩

/-- **When a round succeeds.** -/
theorem submitOne_ok_iff {p : Place} {now host : String} {jid : Nat} {job : Hash} {w : World} :
    (∃ w', submitOne p now host jid job w = .ok w') ↔
      job.get "command" ≠ none ∧ Supplied p jid job w := by
  have hcommand : job.job.command = job.get "command" := rfl
  constructor
  · rintro ⟨w', h⟩
    unfold submitOne at h
    split at h
    · cases h
    rename_i hcmd
    obtain ⟨⟨ts, w₁⟩, hts, h⟩ := bind_eq_ok.mp h
    obtain ⟨jobs, -, h⟩ := bind_eq_ok.mp h
    obtain ⟨tree, htree, -⟩ := bind_eq_ok.mp h
    refine ⟨hcmd, tmpStdin_ok_iff.mp ⟨_, hts⟩, fun ts' w₂ hts' => ?_⟩
    obtain ⟨rfl, rfl⟩ := Prod.ext_iff.mp (Except.ok.inj (hts.symm.trans hts'))
    rw [tmpStdin_tree hts] at htree
    exact (copyData_ok_iff (data_free ts w.tree)).mp ⟨tree, htree⟩
  · rintro ⟨hcmd, hstdin, hdata⟩
    obtain ⟨⟨ts, w₁⟩, hts⟩ := tmpStdin_ok_iff.mpr hstdin
    obtain ⟨tree, htree⟩ := (copyData_ok_iff (data_free ts w.tree)).mpr (hdata ts w₁ hts)
    unfold submitOne
    rw [if_neg hcmd, hts]
    simp only [bind, Except.bind, JobQueue.submitOne_eq, hcommand,
      if_pos (Option.isSome_iff_ne_none.mpr hcmd), tmpStdin_tree hts, htree]
    exact ⟨_, rfl⟩

/-- **When a submission succeeds.**  Induction on the batch. -/
theorem submitFrom_ok_iff {p : Place} {now host : String} : ∀ {jobs : List Hash} {jid : Nat}
    {w : World}, (∃ w', submitFrom p now host jid jobs w = .ok w') ↔
      (∀ job ∈ jobs, job.get "command" ≠ none) ∧ AllSupplied p now host jid jobs w
  | [], _, w => by
    constructor
    · intro _
      exact ⟨fun _ h => absurd h List.not_mem_nil, trivial⟩
    · intro _
      exact ⟨w, rfl⟩
  | job :: jobs, jid, w => by
    constructor
    · rintro ⟨w', h⟩
      unfold submitFrom at h
      obtain ⟨w₁, hone, h⟩ := bind_eq_ok.mp h
      obtain ⟨hcmd, hsupplied⟩ := submitOne_ok_iff.mp ⟨w₁, hone⟩
      obtain ⟨hrest, hall⟩ := submitFrom_ok_iff.mp ⟨w', h⟩
      refine ⟨List.forall_mem_cons.mpr ⟨hcmd, hrest⟩, hsupplied, fun w₂ hone' => ?_⟩
      obtain rfl := Except.ok.inj (hone.symm.trans hone')
      exact hall
    · rintro ⟨hcmd, hsupplied, hall⟩
      obtain ⟨w₁, hone⟩ := submitOne_ok_iff.mpr ⟨hcmd job List.mem_cons_self, hsupplied⟩
      obtain ⟨w', h⟩ := submitFrom_ok_iff.mpr
        ⟨fun j hj => hcmd j (List.mem_cons_of_mem job hj), hall w₁ hone⟩
      refine ⟨w', ?_⟩
      unfold submitFrom
      rw [hone]
      exact h

end RubyQueue.JobFiles
