/-
  `Feeder#reap_zombie_ios`: files of jobs that are gone.

  The stdin, stdout, stderr and data directories of a queue hold an entry for each job, named by its
  id, and possibly foreign ones.  The reaping looks at every entry, takes the digits its path ends
  in for a job id, and removes it when no job has that id; an entry whose path ends in no digits
  raises and is skipped.

  This is Ruby 1.9 (see `JobQueue`), where `Integer(nil)` raises.

  * `trailingDigits_child` — the digits are those of the name, whatever directory it is in;
  * `reapDir_spec`, `reapDirs_spec` — what one loop, and the loop around it, remove;
  * `reapZombieIos_exact` — the main result.
-/
import RubyQueue.Base.FileTree
import RubyQueue.Integer
import RubyQueue.Stamptime

namespace RubyQueue.ZombieIos

open RubyQueue.Sqlite RubyQueue.Quote RubyQueue.JobQueue RubyQueue.FileTree
open RubyQueue.Integer (integer integer_toString)
open RubyQueue.Stamptime (endsLine)

/-! ## The queue -/

/-- The path of a queue, as it was given: glob takes its characters literally, and it is one
    line. -/
structure QueuePath where
  text : Text
  literal : ∀ c ∈ "*?[]{}\\".toList, c ∉ text
  line : '\n' ∉ text

/-- `%w[ stdin stdout stderr data ]`. -/
def ioNames : List Text := ["stdin".toList, "stdout".toList, "stderr".toList, "data".toList]

/-- `@q.send(d)`. -/
def ioDir (q : QueuePath) (d : Text) : Text := join q.text d

/-- The table and the disk. -/
structure World where
  jobs : Jobs
  disk : Disk

/-! ## `reap_zombie_ios` -/

/-- `Dir::glob(File::join(dir, "*"))`: the entries that are not hidden. -/
def glob (cwd : Path) (dir : Text) (w : Disk) : List Text :=
  ((w.entries (expandPath cwd (String.ofList dir))).filter
    fun n => n.toList.head? ≠ some '.').map fun n => join dir n.toList

/-- `iof[%r/\d+\s*$/]`, the first place it matches at, without the blanks `Integer` ignores. -/
def trailingDigits (iof : Text) : Option Text :=
  iof.tails.findSome? fun s =>
    let digits := s.takeWhile Char.isDigit
    if digits ≠ [] ∧ endsLine (s.dropWhile Char.isDigit) then some digits else none

/-- `Integer iof[%r/\d+\s*$/]`. -/
def iofJid (iof : Text) : Except String Nat :=
  match trailingDigits iof with
  | some digits => integer digits
  | none => .error "can't convert nil into Integer"

/-- The body of the inner loop. -/
def reapOne (cwd : Path) (jids : List Nat) (iof : Text) (w : Disk) : Except String Disk := do
  let jid ← iofJid iof
  if jid ∈ jids then .ok w else .ok (w.rmRf (expandPath cwd (String.ofList iof)))

/-- It with its `rescue`, which goes on to the next entry. -/
def reapEntry (cwd : Path) (jids : List Nat) (w : Disk) (iof : Text) : Disk :=
  match reapOne cwd jids iof w with
  | .ok w => w
  | .error _ => w

/-- The inner loop. -/
def reapDir (cwd : Path) (jids : List Nat) (w : Disk) (dir : Text) : Disk :=
  (glob cwd dir w).foldl (reapEntry cwd jids) w

/-- `@q.execute("select jid from jobs").map{|tuple| Integer tuple.first}`. -/
def tableJids (jobs : Jobs) : Except String (List Nat) :=
  jobs.rows.mapM fun r => integer (toString r.jid).toList

/-- `Feeder#reap_zombie_ios`.  Whatever it raises is logged and forgotten. -/
def reapZombieIos (cwd : Path) (q : QueuePath) (w : World) : World :=
  match tableJids w.jobs with
  | .ok jids => { w with disk := (ioNames.map (ioDir q)).foldl (reapDir cwd jids) w.disk }
  | .error _ => w

theorem tableJids_eq (jobs : Jobs) : tableJids jobs = .ok (jobs.rows.map Row.jid) := by
  unfold tableJids
  induction jobs.rows with
  | nil => rfl
  | cons r rows ih =>
    rw [List.mapM_cons, integer_toString, ih]
    rfl

/-- The ids of a table are numbers, so that the loops are reached. -/
theorem reapZombieIos_eq (cwd : Path) (q : QueuePath) (w : World) :
    reapZombieIos cwd q w = { w with
      disk := (ioNames.map (ioDir q)).foldl (reapDir cwd (w.jobs.rows.map Row.jid)) w.disk } := by
  rw [reapZombieIos, tableJids_eq]

/-! ## The digits of a path -/

/-- What is left of a directory is never at the end of a line. -/
theorem endsLine_child {s name : Text} (h : '\n' ∉ s) : endsLine (s ++ '/' :: name) = false := by
  unfold endsLine
  induction s with
  | nil => rfl
  | cons c s ih =>
    have hc : c ≠ '\n' := fun hc => h (hc ▸ List.mem_cons_self)
    have hs := ih fun hs => h (List.mem_cons_of_mem c hs)
    by_cases hblank : isBlank c = true
    · simpa [hblank, hc.symm] using hs
    · simp [hblank]

/-- **The digits are those of the name.** -/
theorem trailingDigits_child {dir name : Text} (h : '\n' ∉ dir) :
    trailingDigits (dir ++ '/' :: name) = trailingDigits name := by
  unfold trailingDigits
  induction dir with
  | nil => rfl
  | cons c dir ih =>
    have hdir : '\n' ∉ dir := fun hd => h (List.mem_cons_of_mem c hd)
    rw [List.cons_append, List.tails_cons, List.findSome?_cons, ← List.cons_append]
    have hdrop : ∃ r, '\n' ∉ r ∧
        (c :: dir ++ '/' :: name).dropWhile Char.isDigit = r ++ '/' :: name := by
      refine ⟨(c :: dir).dropWhile Char.isDigit,
        fun hr => h ((List.dropWhile_sublist _).subset hr), ?_⟩
      rw [List.dropWhile_append]
      split
      · next hempty =>
        rw [List.isEmpty_iff.mp hempty]
        rfl
      · rfl
    obtain ⟨r, hr, hdrop⟩ := hdrop
    simp only [hdrop, endsLine_child hr]
    simpa using ih hdir

/-- A name of digits gives them all. -/
theorem trailingDigits_digits {s : Text} (h : allDigits s = true) : trailingDigits s = some s := by
  obtain ⟨hne, hall⟩ := Bool.and_eq_true_iff.mp h
  have hall := List.all_eq_true.mp hall
  have hne : s ≠ [] := by simpa using hne
  have htails : s.tails = s :: s.tails.tail := by
    cases s <;> simp
  unfold trailingDigits
  rw [htails, List.findSome?_cons, List.takeWhile_eq_self_iff.mpr hall,
    List.dropWhile_eq_nil_iff.mpr hall]
  simp [hne, endsLine]

/-- A name without digits gives none. -/
theorem trailingDigits_none {s : Text} (h : ∀ c ∈ s, c.isDigit = false) :
    trailingDigits s = none := by
  unfold trailingDigits
  rw [List.findSome?_eq_none_iff]
  intro t ht
  have hsub := ((List.mem_tails t s).mp ht).subset
  cases t with
  | nil => rfl
  | cons c t => simp [h c (hsub List.mem_cons_self)]

/-! ## The loops -/

/-- The names in the directories of a queue: job ids, and names with no digit in them. -/
def Named (n : String) : Prop := (∃ jid : Nat, n = toString jid) ∨ ∀ c ∈ n.toList, c.isDigit = false

/-- A number has digits. -/
theorem not_digitless (jid : Nat) : ¬ ∀ c ∈ (toString jid).toList, c.isDigit = false := by
  intro h
  have htext : (toString jid).toList = Nat.toDigits 10 jid := by simp
  obtain ⟨c, hc⟩ := List.exists_mem_of_ne_nil _ (@Nat.toDigits_ne_nil jid 10)
  rw [← htext] at hc
  exact Bool.noConfusion ((isDigit_of_mem_toString hc).symm.trans (h c hc))

/-- At or behind an entry of the directory named by an id that no job has. -/
def Zombie (cwd : Path) (jids : List Nat) (dir : Text) (x : Path) : Prop :=
  ∃ jid, jid ∉ jids ∧ expandPath cwd (String.ofList dir) ++ [toString jid] <+: x

/-- A directory whose entries are looked at: its path is not empty, has no newline and ends in a
    name. -/
structure IoPath (dir : Text) : Prop where
  nonempty : dir ≠ []
  line : '\n' ∉ dir
  last : dir.getLast? ≠ some '/'

theorem join_name {dir : Text} {n : String} (hdir : dir.getLast? ≠ some '/')
    (hplain : n ≠ "" ∧ n ≠ "." ∧ n ≠ ".." ∧ '/' ∉ n.toList) :
    join dir n.toList = dir ++ '/' :: n.toList := by
  have hhead : n.toList.head? ≠ some '/' := fun h => hplain.2.2.2 (List.mem_of_mem_head? h)
  rw [join, if_neg hhead, if_neg hdir]

theorem ioPath (q : QueuePath) {d : Text} (h : d ∈ ioNames) : IoPath (ioDir q d) := by
  have hd : d ≠ [] ∧ '\n' ∉ d ∧ d.head? ≠ some '/' ∧ d.getLast? ≠ some '/' := by
    revert d
    decide
  obtain ⟨hne, hnl, hhead, hlast⟩ := hd
  unfold ioDir join
  rw [if_neg hhead]
  split
  · refine ⟨by simp [hne], ?_, ?_⟩
    · simpa using ⟨q.line, hnl⟩
    · rwa [List.getLast?_append_of_ne_nil _ hne]
  · refine ⟨by simp, ?_, ?_⟩
    · simpa using ⟨q.line, hnl⟩
    · rwa [List.getLast?_append_of_ne_nil _ (by simp), List.getLast?_cons_of_ne_nil hne]

section
variable {cwd : Path} {jids : List Nat} {dir : Text}

/-- **One entry.**  It goes when its name is an id that no job has. -/
theorem reapEntry_removes {n : String} (w : Disk) (hdir : IoPath dir)
    (hplain : n ≠ "" ∧ n ≠ "." ∧ n ≠ ".." ∧ '/' ∉ n.toList) (hn : Named n) :
    Removes (fun x => (∃ jid, jid ∉ jids ∧ n = toString jid) ∧
        expandPath cwd (String.ofList dir) ++ [n] <+: x)
      w.tree (reapEntry cwd jids w (join dir n.toList)).tree := by
  unfold reapEntry reapOne iofJid
  rw [join_name hdir.last hplain, trailingDigits_child hdir.line]
  rcases hn with ⟨jid, rfl⟩ | hn
  · rw [trailingDigits_digits (allDigits_toString jid)]
    simp only [integer_toString, expandPath_child hdir.nonempty hplain]
    by_cases hjid : jid ∈ jids
    · simp only [bind, Except.bind, hjid, if_true]
      refine Removes.of_eq ?_ w.tree
      rintro x ⟨⟨jid', hjid', heq⟩, -⟩
      exact hjid' (toString_inj.mp heq ▸ hjid)
    · simp only [bind, Except.bind, hjid, if_false, Disk.tree_rmRf]
      exact (removes_rmRf _ w.tree).congr (fun x hx => ⟨⟨jid, hjid, rfl⟩, hx⟩) (fun x hx _ => hx.2)
  · rw [trailingDigits_none hn]
    refine Removes.of_eq ?_ w.tree
    rintro x ⟨⟨jid, -, rfl⟩, -⟩
    exact not_digitless jid hn

/-- Every entry the glob gives is an entry of the directory, and no id is hidden. -/
theorem mem_glob {w : Disk} {jid : Nat}
    (h : toString jid ∈ w.entries (expandPath cwd (String.ofList dir))) :
    toString jid ∈ (w.entries (expandPath cwd (String.ofList dir))).filter
      fun n => n.toList.head? ≠ some '.' := by
  refine List.mem_filter.mpr ⟨h, ?_⟩
  simp only [decide_eq_true_eq]
  intro hhead
  have hdot := isDigit_of_mem_toString (List.mem_of_mem_head? hhead)
  cases hdot

/-- **The inner loop.**  The entries are the ones listed before it started. -/
theorem reapDir_removes (w : Disk) (hdir : IoPath dir)
    (hn : ∀ n ∈ w.entries (expandPath cwd (String.ofList dir)), Named n) :
    Removes (Zombie cwd jids dir) w.tree (reapDir cwd jids w dir).tree := by
  unfold reapDir glob
  rw [List.foldl_map]
  have hloop := @Disk.removes_foldl String
    (fun w n => reapEntry cwd jids w (join dir n.toList))
    (fun n x => (∃ jid, jid ∉ jids ∧ n = toString jid) ∧
      expandPath cwd (String.ofList dir) ++ [n] <+: x) (fun _ => True)
    ((w.entries (expandPath cwd (String.ofList dir))).filter fun n => n.toList.head? ≠ some '.') w
    (fun n hmem v _ => by
      have hmem := List.mem_of_mem_filter hmem
      exact reapEntry_removes v hdir (Disk.entries_plain hmem) (hn n hmem))
    (fun _ _ _ _ => trivial) trivial
  refine hloop.congr ?_ ?_
  · rintro x ⟨n, -, ⟨jid, hjid, rfl⟩, hx⟩
    exact ⟨jid, hjid, hx⟩
  · rintro x ⟨jid, hjid, hx⟩ hthere
    exact ⟨toString jid, mem_glob (Disk.mem_entries.mpr ⟨x, hx, hthere⟩), ⟨jid, hjid, rfl⟩, hx⟩

/-- Whatever a removal leaves has the names it had. -/
theorem Named.kept {P : Path → Prop} {w v : Disk} {p : Path} (h : Removes P w.tree v.tree)
    (hn : ∀ n ∈ w.entries p, Named n) : ∀ n ∈ v.entries p, Named n := by
  intro n hmem
  obtain ⟨x, hx, hthere⟩ := Disk.mem_entries.mp hmem
  exact hn n (Disk.mem_entries.mpr ⟨x, hx, h.sub hthere⟩)

/-- **The outer loop.** -/
theorem reapDirs_removes {dirs : List Text} {w : Disk} (hdirs : ∀ dir ∈ dirs, IoPath dir)
    (hn : ∀ dir ∈ dirs, ∀ n ∈ w.entries (expandPath cwd (String.ofList dir)), Named n) :
    Removes (fun x => ∃ dir ∈ dirs, Zombie cwd jids dir x) w.tree
      (dirs.foldl (reapDir cwd jids) w).tree := by
  have hstep : ∀ dir ∈ dirs, ∀ w : Disk,
      (∀ dir ∈ dirs, ∀ n ∈ w.entries (expandPath cwd (String.ofList dir)), Named n) →
      Removes (Zombie cwd jids dir) w.tree (reapDir cwd jids w dir).tree :=
    fun dir hmem w hw => reapDir_removes w (hdirs dir hmem) (hw dir hmem)
  exact Disk.removes_foldl hstep
    (fun dir hmem w hw d hd => Named.kept (hstep dir hmem w hw) (hw d hd)) hn

end

/-! ## The main result -/

/-- **Reaping is exact.**  What is at or behind an entry named by an id that no job has is gone,
    everything else on the disk is as it was, and so is the table. -/
theorem reapZombieIos_exact (cwd : Path) (q : QueuePath) (w : World)
    (hn : ∀ d ∈ ["stdin".toList, "stdout".toList, "stderr".toList, "data".toList],
      ∀ n ∈ w.disk.entries (expandPath cwd (String.ofList (ioDir q d))), Named n) :
    (reapZombieIos cwd q w).jobs = w.jobs ∧
      Removes (fun x => ∃ d ∈ ["stdin".toList, "stdout".toList, "stderr".toList, "data".toList],
          ∃ jid, (∀ r ∈ w.jobs, r.jid ≠ jid) ∧
          expandPath cwd (String.ofList (ioDir q d)) ++ [toString jid] <+: x)
        w.disk.tree (reapZombieIos cwd q w).disk.tree := by
  refine ⟨by rw [reapZombieIos_eq], ?_⟩
  have hdisk : (reapZombieIos cwd q w).disk =
      (ioNames.map (ioDir q)).foldl (reapDir cwd (w.jobs.rows.map Row.jid)) w.disk := by
    rw [reapZombieIos_eq]
  rw [hdisk]
  have hdirs : ∀ dir ∈ ioNames.map (ioDir q), IoPath dir := by
    intro dir hdir
    obtain ⟨d, hd, rfl⟩ := List.mem_map.mp hdir
    exact ioPath q hd
  have hnames : ∀ dir ∈ ioNames.map (ioDir q),
      ∀ n ∈ w.disk.entries (expandPath cwd (String.ofList dir)), Named n := by
    intro dir hdir
    obtain ⟨d, hd, rfl⟩ := List.mem_map.mp hdir
    exact hn d hd
  refine (reapDirs_removes hdirs hnames).congr ?_ ?_
  · rintro x ⟨dir, hdir, jid, hjid, hx⟩
    obtain ⟨d, hd, rfl⟩ := List.mem_map.mp hdir
    exact ⟨d, hd, jid, fun r hr heq => hjid (List.mem_map.mpr ⟨r, hr, heq⟩), hx⟩
  · rintro x ⟨d, hd, jid, hjid, hx⟩ -
    refine ⟨ioDir q d, List.mem_map_of_mem hd, jid, fun hmem => ?_, hx⟩
    obtain ⟨r, hr, heq⟩ := List.mem_map.mp hmem
    exact hjid r hr heq

/-- The queue directory `q`. -/
def leftPath : QueuePath := ⟨"q".toList, by simp, by simp⟩

/-- Job 1 in the table; what is left of jobs 1 and 12, and a foreign file, on the disk. -/
def leftQueue : World where
  jobs := ⟨[⟨1, none, some "running", none, none, none, none, none, none, none, none, none, none,
    none, none, none, none, some "date"⟩], by decide⟩
  disk := ⟨[(["q", "stdin", "1"], .file ""), (["q", "stdin", "12"], .file "a"),
    (["q", "data", "12", "out"], .file "b"), (["q", "stdout", "notes"], .file "c")], by decide⟩

set_option maxRecDepth 8000 in
theorem reapZombieIos_left :
    (reapZombieIos [] leftPath leftQueue).jobs = leftQueue.jobs ∧
      Removes (fun x => ∃ d ∈ ["stdin".toList, "stdout".toList, "stderr".toList, "data".toList],
          ∃ jid, (∀ r ∈ leftQueue.jobs, r.jid ≠ jid) ∧
          expandPath [] (String.ofList (ioDir leftPath d)) ++ [toString jid] <+: x)
        leftQueue.disk.tree (reapZombieIos [] leftPath leftQueue).disk.tree := by
  have hentries : ∀ d ∈ ioNames, ∀ n ∈ leftQueue.disk.entries
      (expandPath [] (String.ofList (ioDir leftPath d))),
      n = "1" ∨ n = "12" ∨ n = "notes" := by decide
  refine reapZombieIos_exact [] leftPath leftQueue fun d hd n hn => ?_
  rcases hentries d hd n hn with rfl | rfl | rfl
  · exact Or.inl ⟨1, by decide⟩
  · exact Or.inl ⟨12, by decide⟩
  · exact Or.inr (by simp)

end RubyQueue.ZombieIos
