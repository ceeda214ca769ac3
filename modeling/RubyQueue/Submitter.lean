/-
  Where the jobs of a submission come from: `lib/rq/submitter.rb` and the loaders of `MainHelper`.

  Jobs are taken from the command line, the infile, or stdin when there are none yet; `loadio` reads
  one command a line, and from a line `---` on the simple yaml that `rq list` prints.  Then every job
  is stamped with the options: `stamp_state`, `stamp_command` and `stamp_stdin` say what this makes
  of it.
-/
import RubyQueue.Clients
import RubyQueue.Integer

namespace RubyQueue.Submitter

open RubyQueue.Quote RubyQueue.JobQueue
open RubyQueue.Integer (integer)

/-! ## Jobs as the input gives them -/

/-- A job hash: the keys set so far, the last one first. -/
abbrev Hash := List (String × Option String)

/-- `job[key]`, nil for a key that is not there. -/
def Hash.get (h : Hash) (key : String) : Option String := (h.lookup key).join

/-- `job[key] = v`. -/
def Hash.set (h : Hash) (key : String) (v : Option String) : Hash := (key, v) :: h

/-- `k, v = line.split %r/:/, 2`, each stripped; `none` without a colon, where `v` is nil. -/
def splitColon (line : Text) : Option (Text × Text) :=
  match line.dropWhile (· != ':') with
  | [] => none
  | _ :: v => some (stripText (line.takeWhile (· != ':')), stripText v)

/-- `MainHelper#loadyaml`; `h` is the hash being read. -/
def loadyaml : List Text → Option Hash → List Hash → Except String (List Hash)
  | [], h, jobs => .ok (jobs ++ h.toList)
  | line :: io, h, jobs =>
    let line := stripText line
    if line.isEmpty then loadyaml io h jobs
    else if line = ['-'] then loadyaml io (some []) (jobs ++ h.toList)
    else
      match splitColon line, h with
      | some (k, v), some h =>
        loadyaml io (some (h.set (String.ofList k) (some (String.ofList v)))) jobs
      | _, _ => .error "undefined method for nil"

/-- `line =~ %r/^---\s*$/o`. -/
def isDashes : Text → Bool
  | '-' :: '-' :: '-' :: rest => rest.all isBlank
  | _ => false

/-- The text after `jid =`, when the line starts so. -/
def afterJid (line : Text) : Text :=
  if (line.take 3).map Char.toLower = "jid".toList then
    match (line.drop 3).dropWhile isBlank with
    | '=' :: rest => rest.dropWhile isBlank
    | _ => line
  else line

/-- `MainHelper#loadio`: a line is a jid or a command. -/
def loadio : List Text → List Hash → Except String (List Hash)
  | [], jobs => .ok jobs
  | line :: io, jobs =>
    if isDashes line then loadyaml io none jobs
    else
      let line := stripText line
      if line.isEmpty then loadio io jobs
      else if allDigits (afterJid line) then
        match integer (afterJid line) with
        | .ok jid => loadio io (jobs ++ [Hash.set [] "jid" (some (toString jid))])
        | .error e => .error e
      else loadio io (jobs ++ [Hash.set [] "command" (some (String.ofList line))])

/-! ## `Submitter#submit` -/

/-- The options `submit` looks at; `infile` is the text of the file. -/
structure Options where
  given : Overrides := {}
  stage : Bool := false
  infile : Option Text := none
  jobStdin : Option String := none
  data : Option String := none
deriving DecidableEq, Repr

/-- `job[key] = v if …`. -/
def Hash.setIf (h : Hash) (key : String) (v : Option (Option String)) : Hash :=
  match v with
  | some v => h.set key v
  | none => h

/-- The job of the command line. -/
def argvJob (opts : Options) (argv : List String) : Hash :=
  ((((Hash.set [] "command" (some (" ".intercalate argv))).set
    "priority" opts.given.priority.join).set
    "tag" opts.given.tag.join).set
    "runner" opts.given.runner.join).set
    "restartable" opts.given.restartable.join

/-- The jobs it finds: those of the command line and the infile, or else of stdin. -/
def findJobs (opts : Options) (argv : List String) (stdin : Option Text) :
    Except String (List Hash) := do
  if opts.jobStdin = some "-" && stdin.isSome then
    .error "cannot specify both jobs and job input on stdin"
  let jobs := if argv.isEmpty then [] else [argvJob opts argv]
  let jobs ← match opts.infile with
    | some f => loadio (lines f) jobs
    | none => .ok jobs
  match jobs, stdin with
  | [], some io => loadio (lines io) []
  | _, _ => .ok jobs

/-- `abort "no jobs specified!" if jobs.empty?`. -/
def readJobs (opts : Options) (argv : List String) (stdin : Option Text) :
    Except String (List Hash) :=
  match findJobs opts argv stdin with
  | .error e => .error e
  | .ok jobs => if jobs.isEmpty then .error "no jobs specified!" else .ok jobs

/-- What `jobs.each` does to one of them. -/
def stamp (opts : Options) (job : Hash) : Hash :=
  ((((((job.set "state" (some (if opts.stage then "holding" else "pending"))).setIf
    "priority" opts.given.priority).setIf
    "tag" opts.given.tag).setIf
    "runner" opts.given.runner).setIf
    "restartable" opts.given.restartable).setIf
    "stdin" (opts.jobStdin.map some)).setIf
    "data" (opts.data.map some)

/-- The keys `JobQueue#submit` puts into the row; `state` is not one of them. -/
def Hash.job (h : Hash) : JobHash where
  command := h.get "command"
  priority := h.get "priority"
  tag := h.get "tag"
  runner := h.get "runner"
  restartable := h.get "restartable"

/-- The job it stages asks to be on hold. -/
theorem stamp_state (opts : Options) (job : Hash) :
    (stamp opts job).get "state" = some (if opts.stage then "holding" else "pending") := by
  obtain ⟨⟨p, t, r, e⟩, stage, infile, i, d⟩ := opts
  cases p <;> cases t <;> cases r <;> cases e <;> cases i <;> cases d <;> rfl

/-- Options do not change the command. -/
theorem stamp_command (opts : Options) (job : Hash) :
    (stamp opts job).job.command = job.get "command" := by
  obtain ⟨⟨p, t, r, e⟩, stage, infile, i, d⟩ := opts
  cases p <;> cases t <;> cases r <;> cases e <;> cases i <;> cases d <;> rfl

/-- A stdin that is asked for is that of every job. -/
theorem stamp_stdin {opts : Options} {text : String} (h : opts.jobStdin = some text) (job : Hash) :
    (stamp opts job).get "stdin" = some text := by
  obtain ⟨⟨p, t, r, e⟩, stage, infile, i, d⟩ := opts
  obtain rfl : i = some text := h
  cases d <;> rfl

/-- What is read is not nothing. -/
theorem readJobs_ne_nil {opts : Options} {argv : List String} {stdin : Option Text}
    {jobs : List Hash} (h : readJobs opts argv stdin = .ok jobs) : jobs ≠ [] := by
  rintro rfl
  unfold readJobs at h
  split at h
  · cases h
  split at h
  · cases h
  · rename_i hne
    cases h
    exact hne rfl

end RubyQueue.Submitter
