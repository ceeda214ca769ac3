/-
  `JobRunner#run`: what is written to the shell that was forked for a job.

  The command is put in a group behind the path of the queue's `bin`, with the redirections of the
  job's files after it.  Before that everything from a `#` to the end of its line is cut off the
  command ("kill comments"), whether or not the shell would see a comment there.

  * `new`, `run`      — the class;
  * `commandText_eq`  — what is written, with the command in one place;
  * `run_intact_iff`  — a command without comments arrives exactly when there is no `#` in it.
-/
import RubyQueue.Base.FileTree
import RubyQueue.Base.Shell
import RubyQueue.Listing

namespace RubyQueue

open RubyQueue.Quote RubyQueue.JobQueue RubyQueue.FileTree RubyQueue.Shell
open RubyQueue.Listing (puts)

/-! ## The class -/

/-- A `JobRunner`, as far as `run` reads it. -/
structure JobRunner where
  bin : Text
  shell : Text
  command : Option Text
  stdin : Option Text
  stdout : Option Text
  stderr : Option Text
deriving DecidableEq

namespace JobRunner

/-- `File::basename`. -/
def basename (path : Text) : Text :=
  if path ≠ [] ∧ path.all (· == '/') then ['/']
  else (path.rdropWhile (· == '/')).rtakeWhile (· != '/')

/-- `@sh_like`. -/
def shLike (r : JobRunner) : Bool :=
  basename r.shell == "bash".toList || basename r.shell == "sh".toList

/-- `JobRunner#initialize`.  The paths of a job are taken from the queue's; a job has no field
    `shell`, and what is read for it is passed in. -/
def new (path bin : Text) (shell : Option Text) (job : Row) : JobRunner where
  bin := bin
  shell := shell.getD "bash".toList
  command := job.command.map String.toList
  stdin := job.stdin.map fun f => join path f.toList
  stdout := job.stdout.map fun f => join path f.toList
  stderr := job.stderr.map fun f => join path f.toList

/-! ## `run` -/

/-- `gsub %r/#.*/o, ''`; the flag says that a match is under way. -/
def killComments : Bool → Text → Text
  | _, [] => []
  | true, c :: s => if c = '\n' then c :: killComments false s else killComments true s
  | false, c :: s => if c = '#' then killComments true s else c :: killComments false s

/-- A redirection, or nothing. -/
def redirect (operator : String) (file : Option Text) : Text :=
  match file with
  | some f => operator.toList ++ f
  | none => []

/-- The text around the command. -/
def commandText (exist : Text → Bool) (r : JobRunner) (command : Text) : Text :=
  if shLike r then
    let sin := redirect "0<" (r.stdin.filter exist)
    let sout := redirect "1>" r.stdout
    let serr := redirect "2>" r.stderr
    "( PATH=".toList ++ r.bin ++ ":$PATH ".toList ++ command ++ " ;) ".toList ++ sin ++ [' '] ++ sout
      ++ [' '] ++ serr
  else
    let sin := redirect "<" r.stdin
    let sout := redirect ">" r.stdout
    let serr := redirect ">&" r.stderr
    "( ( ".toList ++ command ++ " ;) ".toList ++ sin ++ [' '] ++ sout ++ " ) ".toList ++ serr

/-- What a run does: the text it writes to the shell, and the file it makes sure is there. -/
structure Written where
  text : Text
  touched : Option Text

/-- `JobRunner#run`; `exist` says which files there are. -/
def run (exist : Text → Bool) (r : JobRunner) : Except String Written :=
  match r.command with
  | none => .error "undefined method `gsub' for nil:NilClass"
  | some command =>
    let command := killComments false command
    let text := commandText exist r command
    match r.stdin with
    | none => .error "can't convert nil into String"
    | some stdin =>
      .ok { text := puts text, touched := if exist stdin then none else some stdin }

/-! ## What is written -/

/-- What comes before the command. -/
def opening (r : JobRunner) : Text :=
  if shLike r then "( PATH=".toList ++ r.bin ++ ":$PATH ".toList else "( ( ".toList

/-- What comes after the group. -/
def redirections (exist : Text → Bool) (r : JobRunner) : Text :=
  if shLike r then
    [' '] ++ redirect "0<" (r.stdin.filter exist) ++ [' '] ++ redirect "1>" r.stdout ++ [' ']
      ++ redirect "2>" r.stderr
  else
    [' '] ++ redirect "<" r.stdin ++ [' '] ++ redirect ">" r.stdout ++ " ) ".toList
      ++ redirect ">&" r.stderr

/-- The command stands unchanged between the opening and the `;)` that closes the group. -/
def Intact (exist : Text → Bool) (r : JobRunner) (command text : Text) : Prop :=
  text = opening r ++ command ++ " ;)".toList ++ puts (redirections exist r)

theorem commandText_eq (exist : Text → Bool) (r : JobRunner) (command : Text) :
    commandText exist r command
      = opening r ++ command ++ " ;)".toList ++ redirections exist r := by
  unfold commandText opening redirections
  split <;> simp

theorem puts_append {a b : Text} (hb : b ≠ []) : puts (a ++ b) = a ++ puts b := by
  unfold puts
  rw [List.getLast?_append_of_ne_nil a hb]
  split
  · rfl
  · rw [List.append_assoc]

theorem redirections_ne_nil (exist : Text → Bool) (r : JobRunner) : redirections exist r ≠ [] := by
  unfold redirections
  split <;> simp

/-- **A run writes the command without what it takes for comments.** -/
theorem run_text {exist : Text → Bool} {r : JobRunner} {command : Text} {w : Written}
    (hcommand : r.command = some command) (h : run exist r = .ok w) :
    Intact exist r (killComments false command) w.text := by
  unfold run at h
  rw [hcommand] at h
  cases hstdin : r.stdin with
  | none => simp [hstdin] at h
  | some stdin =>
    simp only [hstdin, Except.ok.injEq] at h
    subst h
    show puts _ = _
    rw [commandText_eq, puts_append (redirections_ne_nil exist r)]

/-- With a stdin, which every job of a queue has, something is written. -/
theorem run_writes (exist : Text → Bool) {r : JobRunner} (hcommand : r.command ≠ none)
    (hstdin : r.stdin ≠ none) : ∃ w, run exist r = .ok w := by
  obtain ⟨command, hcommand⟩ := Option.ne_none_iff_exists'.mp hcommand
  obtain ⟨stdin, hstdin⟩ := Option.ne_none_iff_exists'.mp hstdin
  unfold run
  rw [hcommand]
  simp [hstdin]

/-! ## Comments -/

/-- No `#` is left, whatever it was for. -/
theorem not_mem_killComments : ∀ (b : Bool) (s : Text), '#' ∉ killComments b s
  | _, [] => by simp [killComments]
  | true, c :: s => by
    unfold killComments
    split
    · next hc =>
      subst hc
      simpa using not_mem_killComments false s
    · exact not_mem_killComments true s
  | false, c :: s => by
    unfold killComments
    split
    · exact not_mem_killComments true s
    · next hc =>
      rintro (_ | ⟨_, hs⟩)
      · exact hc rfl
      · exact not_mem_killComments false s hs

theorem killComments_of_not_mem : ∀ {s : Text}, '#' ∉ s → killComments false s = s
  | [], _ => rfl
  | c :: s, h => by
    have hc : c ≠ '#' := fun hc => h (hc ▸ List.mem_cons_self)
    rw [killComments, if_neg hc, killComments_of_not_mem fun hs => h (List.mem_cons_of_mem c hs)]

theorem killComments_eq_self_iff {s : Text} : killComments false s = s ↔ '#' ∉ s :=
  ⟨fun h => h ▸ not_mem_killComments false s, killComments_of_not_mem⟩

/-- A run leaves its command as it is when there is no `#` in it, and only then. -/
theorem intact_iff {exist : Text → Bool} {r : JobRunner} {command : Text} {w : Written}
    (hcommand : r.command = some command) (h : run exist r = .ok w) :
    Intact exist r command w.text ↔ '#' ∉ command := by
  have htext := run_text hcommand h
  unfold Intact at htext ⊢
  rw [htext, List.append_left_inj, List.append_left_inj, List.append_right_inj,
    killComments_eq_self_iff]

/-- **When a command reaches the shell intact unless it has a comment**: when there is no `#` in it,
    or one that does start a comment. -/
theorem run_intact_iff {exist : Text → Bool} {r : JobRunner} {command : Text} {w : Written}
    (hcommand : r.command = some command) (h : run exist r = .ok w) :
    (NoComment command → Intact exist r command w.text) ↔
      '#' ∉ command ∨ ¬ NoComment command := by
  rw [intact_iff hcommand h]
  by_cases hcomment : NoComment command <;> simp [hcomment]

/-- A job of a queue in `q`. -/
def echoRunner (command : String) : JobRunner :=
  new "q".toList "q/bin".toList none ⟨1, none, some "running", none, none, none, none, none, none,
    some "stdin/1", some "stdout/1", some "stderr/1", none, none, none, none, none, some command⟩

theorem run_intact_echo : (NoComment "echo a".toList →
      Intact (fun _ => true) (echoRunner "echo a") "echo a".toList
        "( PATH=q/bin:$PATH echo a ;) 0<q/stdin/1 1>q/stdout/1 2>q/stderr/1\n".toList) ↔
    '#' ∉ "echo a".toList ∨ ¬ NoComment "echo a".toList :=
  @run_intact_iff (fun _ => true) (echoRunner "echo a") "echo a".toList ⟨_, none⟩ rfl rfl

/-- A `#` inside quotes: the shell is left with an open quote. -/
theorem not_intact_quoted : NoComment "echo 'a # b'".toList ∧
    (∃ w, run (fun _ => true) (echoRunner "echo 'a # b'") = .ok w ∧
      w.text = "( PATH=q/bin:$PATH echo 'a  ;) 0<q/stdin/1 1>q/stdout/1 2>q/stderr/1\n".toList ∧
      ¬ Intact (fun _ => true) (echoRunner "echo 'a # b'") "echo 'a # b'".toList w.text) := by
  refine ⟨by decide, _, rfl, by decide, ?_⟩
  unfold Intact
  decide

end JobRunner

end RubyQueue
