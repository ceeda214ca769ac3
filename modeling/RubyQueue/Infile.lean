/-
  A plain list of commands, as `MainHelper#loadio` reads it.

  The documented format is a command a line, with blank lines and comments allowed.  The line of the
  source that would remove comments is itself commented out: a comment becomes a job, like any line
  that is not blank.  A line that is a job id goes through `Integer`, which raises for `08`.

  `loadio_eq` says what the loop makes of lines none of which is `---`, `plain_list_iff` when that is
  what is documented.
-/
import RubyQueue.Submitter

namespace RubyQueue.Infile

open RubyQueue.Quote RubyQueue.JobQueue RubyQueue.Submitter RubyQueue.Raise
open RubyQueue.Integer (integer integer_ok_iff)

/-! ## Lines -/

/-- Nothing but blanks. -/
def blankLine (line : Text) : Bool := (stripText line).isEmpty

/-- The first character that is not blank is a `#`. -/
def comment (line : Text) : Bool := (stripText line).head? == some '#'

/-- `number`, or `jid = number`. -/
def jidLine (line : Text) : Bool := allDigits (afterJid (stripText line))

/-- The job of a line that is neither blank nor a comment: one with a jid, or one with the line as
    its command. -/
def JobOf (line : Text) (job : Hash) : Prop :=
  if jidLine line then job.get "command" = none ∧ (job.get "jid").isSome
  else job.get "command" = some (String.ofList (stripText line)) ∧ job.get "jid" = none

/-- One job a line, in order. -/
def PlainJobs (ls : List Text) (new : List Hash) : Prop :=
  List.Forall₂ JobOf (ls.filter fun line => !blankLine line && !comment line) new

/-! ## What the loop makes of them -/

/-- The job `loadio` makes of a line that is not blank. -/
def lineJob (line : Text) : Except String Hash :=
  if jidLine line then
    (integer (afterJid (stripText line))).map fun jid => Hash.set [] "jid" (some (toString jid))
  else .ok (Hash.set [] "command" (some (String.ofList (stripText line))))

theorem map_append_cons (x : Except String (List Hash)) (jobs : List Hash) (job : Hash) :
    x.map (jobs ++ [job] ++ ·) = (x >>= fun new => Except.ok (job :: new)).map (jobs ++ ·) := by
  cases x with
  | error e => rfl
  | ok new =>
    show Except.ok (jobs ++ [job] ++ new) = Except.ok (jobs ++ job :: new)
    rw [List.append_assoc, List.singleton_append]

/-- **The loop of `loadio`**, without a `---`: a job for each line that is not blank.  Induction on the
    lines; the jobs read before stay in front. -/
theorem loadio_eq : ∀ {ls : List Text} (jobs : List Hash), (∀ line ∈ ls, isDashes line = false) →
    loadio ls jobs = ((ls.filter fun line => !blankLine line).mapM lineJob).map (jobs ++ ·)
  | [], jobs, _ => by
    show Except.ok jobs = Except.ok (jobs ++ [])
    rw [List.append_nil]
  | line :: ls, jobs, h => by
    have hrest : ∀ l ∈ ls, isDashes l = false := fun l hl => h l (List.mem_cons_of_mem line hl)
    rw [loadio, h line List.mem_cons_self, if_neg Bool.false_ne_true]
    show (if blankLine line = true then loadio ls jobs
      else if jidLine line = true then _
      else loadio ls (jobs ++ [Hash.set [] "command" (some (String.ofList (stripText line)))])) = _
    by_cases hblank : blankLine line = true
    · rw [if_pos hblank, List.filter_cons_of_neg (by simp [hblank])]
      exact loadio_eq jobs hrest
    · rw [if_neg hblank, List.filter_cons_of_pos (by simp [hblank]), List.mapM_cons]
      by_cases hjid : jidLine line = true
      · rw [if_pos hjid, show lineJob line = _ from if_pos hjid]
        cases integer (afterJid (stripText line)) with
        | error e => rfl
        | ok jid => exact (loadio_eq _ hrest).trans (map_append_cons _ jobs _)
      · rw [if_neg hjid, show lineJob line = _ from if_neg hjid]
        exact (loadio_eq _ hrest).trans (map_append_cons _ jobs _)

/-! ## When the list is read as documented -/

theorem jobOf_of_lineJob {line : Text} {job : Hash} (h : lineJob line = .ok job) : JobOf line job := by
  unfold lineJob at h
  unfold JobOf
  split at h
  · rename_i hjid
    rw [if_pos hjid]
    cases hint : integer (afterJid (stripText line)) with
    | error e =>
      rw [hint] at h
      cases h
    | ok jid =>
      rw [hint] at h
      obtain rfl := Except.ok.inj h
      exact ⟨rfl, rfl⟩
  · rename_i hjid
    rw [if_neg hjid]
    obtain rfl := Except.ok.inj h
    exact ⟨rfl, rfl⟩

theorem lineJob_ok_iff {line : Text} : (∃ job, lineJob line = .ok job) ↔
    (jidLine line = true → ∃ jid, integer (afterJid (stripText line)) = .ok jid) := by
  unfold lineJob
  split
  · rename_i hjid
    cases integer (afterJid (stripText line)) with
    | error e =>
      constructor
      · rintro ⟨job, h⟩
        cases h
      · intro h
        obtain ⟨jid, h⟩ := h hjid
        cases h
    | ok jid => exact ⟨fun _ _ => ⟨jid, rfl⟩, fun _ => ⟨_, rfl⟩⟩
  · rename_i hjid
    exact ⟨fun _ h => absurd h hjid, fun _ => ⟨_, rfl⟩⟩

/-- A blank line is no comment. -/
theorem comment_of_blankLine {line : Text} (h : blankLine line = true) : comment line = false := by
  unfold comment
  rw [List.isEmpty_iff.mp h]
  rfl

/-- Nor is it a job id. -/
theorem jidLine_of_blankLine {line : Text} (h : blankLine line = true) : jidLine line = false := by
  unfold jidLine
  rw [List.isEmpty_iff.mp h]
  rfl

/-- Comments are among the lines that are not blank. -/
theorem filter_comment (ls : List Text) : ls.filter (fun line => !blankLine line && !comment line)
    = (ls.filter fun line => !blankLine line).filter fun line => !comment line := by
  rw [List.filter_filter]
  exact List.filter_congr fun line _ => Bool.and_comm _ _

/-- **When a plain list is read as documented**: no line of it is a comment, and no job id in it starts
    with a zero and is not octal. -/
theorem plain_list_iff (ls : List Text) (h : ∀ line ∈ ls, isDashes line = false) (jobs : List Hash) :
    (∃ new, loadio ls jobs = .ok (jobs ++ new) ∧ PlainJobs ls new) ↔
      ∀ line ∈ ls, comment line = false ∧
        (jidLine line = true → (afterJid (stripText line)).head? = some '0' →
          (afterJid (stripText line)).all (· < '8') = true) := by
  unfold PlainJobs
  rw [loadio_eq jobs h, filter_comment]
  constructor
  · rintro ⟨new, hload, hjobs⟩
    cases hmap : (ls.filter fun line => !blankLine line).mapM lineJob with
    | error e =>
      rw [hmap] at hload
      cases hload
    | ok new' =>
      rw [hmap] at hload
      obtain rfl := List.append_cancel_left (Except.ok.inj hload)
      -- as many jobs as lines that are not blank, so that no line is left out
      have hlen := (forall₂_of_mapM_ok hmap).length_eq.trans hjobs.length_eq.symm
      have hnone := List.length_filter_eq_length_iff.mp hlen.symm
      intro line hline
      by_cases hblank : blankLine line = true
      · refine ⟨comment_of_blankLine hblank, fun hjid => ?_⟩
        rw [jidLine_of_blankLine hblank] at hjid
        cases hjid
      · have hmem : line ∈ ls.filter fun line => !blankLine line :=
          List.mem_filter.mpr ⟨hline, by simpa using hblank⟩
        have hjob := lineJob_ok_iff.mp (mapM_ok_iff.mp ⟨new', hmap⟩ line hmem)
        exact ⟨by simpa using hnone line hmem, fun hjid => (integer_ok_iff hjid).mp (hjob hjid)⟩
  · intro hall
    have hsame : (ls.filter fun line => !blankLine line).filter (fun line => !comment line)
        = ls.filter fun line => !blankLine line :=
      List.filter_eq_self.mpr fun line hline => by
        simp [(hall line (List.mem_filter.mp hline).1).1]
    obtain ⟨new, hmap⟩ : ∃ new, (ls.filter fun line => !blankLine line).mapM lineJob = .ok new :=
      mapM_ok_iff.mpr fun line hline => lineJob_ok_iff.mpr fun hjid =>
        (integer_ok_iff hjid).mpr ((hall line (List.mem_filter.mp hline).1).2 hjid)
    refine ⟨new, ?_, ?_⟩
    · rw [hmap]
      rfl
    · rw [hsame]
      exact (forall₂_of_mapM_ok hmap).imp fun _ _ => jobOf_of_lineJob

/-- A command, a blank line and a job id. -/
theorem plain_list_two_jobs : ∃ new,
    loadio ["sort a".toList, "".toList, "jid = 12".toList] [] = .ok ([] ++ new) ∧
      PlainJobs ["sort a".toList, "".toList, "jid = 12".toList] new :=
  (plain_list_iff _ (by decide) []).mpr (by decide)

/-- `# note` is submitted as a command, and `08` raises. -/
theorem comment_is_submitted :
    (loadio ["# note".toList] [] = .ok [[("command", some "# note")]] ∧
      ¬ PlainJobs ["# note".toList] [[("command", some "# note")]]) ∧
    loadio ["08".toList] [] = .error "invalid value for Integer(): \"08\"" := by
  refine ⟨⟨by decide, ?_⟩, by decide⟩
  intro h
  have hlen := h.length_eq
  revert hlen
  decide

end RubyQueue.Infile
