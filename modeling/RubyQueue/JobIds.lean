/-
  One job id, in every mode.

  The text of a job id goes into SQL as it is (`delete`), into SQL between quotes (`list`, and with it
  `resubmit`), or through Ruby's `Integer` (`update`, and the lists that are read from a file or from
  stdin).  SQL reads digits in decimal, `Integer` in octal when the first one is a zero; and the quotes
  come with brackets under Ruby 1.9.

  * `delete_digits`, `list_digits`                    — the two readers in SQL;
  * `update_digits`, `stdin_digits`, `loadio_digits`  — the three that call `Integer`;
  * `same_job_iff`                                    — when all of them mean one job.
-/
import RubyQueue.Infile
import RubyQueue.Interpolate
import RubyQueue.Updater

namespace RubyQueue.JobIds

open RubyQueue.Sqlite RubyQueue.Quote RubyQueue.JobQueue RubyQueue.Listing
open RubyQueue.Interpolate (list_eq plain_listArgs)
open RubyQueue.Where (OtherSelect)
open RubyQueue.Integer (integer ReadsDecimal integer_eq_iff)

/-! ## The readers -/

/-- The Ruby the program runs under: `"#{ QDB::q what }"`, of an Array, is its elements or what
    `inspect` writes. -/
inductive Ruby
  | v1_8
  | v1_9
deriving DecidableEq, Repr

/-- What `@q.list(s)` returns: the jobs that `rq list` prints, and that `rq resubmit` goes through. -/
def listed (ruby : Ruby) (other : OtherSelect) (s : Text) (db : Jobs) : Except String (List Row) :=
  match ruby with
  | .v1_8 => .ok (list [.text (String.ofList s)] db)
  | .v1_9 => Interpolate.list other [.text (String.ofList s)] db

/-- Every mode takes the digits for the job with this number. -/
structure SameJob (ruby : Ruby) (s : Text) (n : Nat) : Prop where
  delete : ∀ sqlite force db, delete sqlite force [String.ofList s] db
    = .ok (db.delete fun r => r.jid == n && neLit r.state "running")
  list : ∀ other db, listed ruby other s db = .ok (db.rows.filter fun r => r.jid == n)
  update : Updater.update none [s] none = .ok ([], [.number n])
  stdin : Updater.update none [] (some s) = .ok ([], [.number n])
  loadio : Submitter.loadio [s] [] = .ok [Submitter.Hash.set [] "jid" (some (toString n))]

theorem toLower_digit {c : Char} (h : c.isDigit = true) : c.toLower = c := by
  unfold Char.toLower
  rw [dif_neg]
  rintro ⟨hlow, -⟩
  simp [Char.isDigit, UInt32.le_iff_toNat_le] at h hlow
  omega

section Digits

variable {s : Text} (h : allDigits s = true)

/-! ## In SQL -/

include h

theorem delete_digits (sqlite : OtherSql) (force : Bool) (db : Jobs) :
    delete sqlite force [String.ofList s] db
      = .ok (db.delete fun r => r.jid == digitsValue s && neLit r.state "running") := by
  have hdesignate : designate force (String.ofList s) = .ok (.jid (digitsValue s)) := by
    rw [Delete.designate_digits (by rw [String.toList_ofList]; exact h), String.toList_ofList]
  have hmap : [String.ofList s].mapM (designate force) = .ok [.jid (digitsValue s)] := by
    rw [List.mapM_cons, hdesignate]
    rfl
  show ([String.ofList s].mapM (designate force) >>= _) = _
  rw [hmap]
  rfl

/-- They begin with a digit, which has no lower case. -/
theorem head_digits : ∃ c cs, s = c :: cs ∧ c.isDigit = true ∧ c.toLower = c := by
  obtain ⟨hne, hall⟩ := Bool.and_eq_true_iff.mp h
  obtain ⟨c, cs, rfl⟩ := List.exists_cons_of_ne_nil (by simpa using hne : s ≠ [])
  have hdigit := List.all_eq_true.mp hall c List.mem_cons_self
  exact ⟨c, cs, rfl, hdigit, toLower_digit hdigit⟩

/-- Digits are no word. -/
theorem letterStarts_digits {c : Char} (hc : c.isDigit = false) : letterStarts c s = false := by
  have hdigits := List.all_eq_true.mp (Bool.and_eq_true_iff.mp h).2
  unfold letterStarts
  rw [lines_digits h, List.any_cons, List.any_nil, Bool.or_false,
    dropWhile_digits (fun _ => isBlank_of_isDigit) hdigits]
  obtain ⟨d, ds, rfl, hd, hlower⟩ := head_digits h
  show (d.toLower == c) = false
  rw [hlower, beq_eq_false_iff_ne]
  rintro rfl
  rw [hd] at hc
  cases hc

theorem list_digits (db : Jobs) : list [.text (String.ofList s)] db
    = db.rows.filter fun r => r.jid == digitsValue s := by
  have hall : (ListArg.text "all" == ListArg.text (String.ofList s)) = false := by
    rw [beq_eq_false_iff_ne]
    intro heq
    have hs : "all".toList = s :=
      (congrArg String.toList (ListArg.text.inj heq)).trans String.toList_ofList
    rw [← hs] at h
    exact absurd h (by decide)
  have hselects : ∀ r : Row, (ListArg.text (String.ofList s)).selects r = (r.jid == digitsValue s) := by
    intro r
    have hletter : ∀ c : Char, c.isDigit = false → letterStarts c s = false :=
      fun c hc => letterStarts_digits h hc
    unfold ListArg.selects
    simp only [String.toList_ofList, hletter 'p' rfl, hletter 'h' rfl, hletter 'r' rfl,
      hletter 'f' rfl, hletter 'd' rfl, lines_digits h, strip_digits h, h, List.any_cons,
      Bool.true_or, Bool.true_and, if_true, Bool.false_eq_true, if_false]
  unfold list
  simp only [List.isEmpty_cons, List.contains_cons, List.contains_nil, Bool.or_false, hall,
    Bool.false_eq_true, if_false, List.any_cons, List.any_nil, hselects]

theorem list_digits_raises (other : OtherSelect) (db : Jobs) :
    Interpolate.list other [.text (String.ofList s)] db = .error "no such column" := by
  have hplain : ∀ a ∈ [Interpolate.Arg.text (String.ofList s)], Interpolate.IsListArg a := by
    intro a ha
    obtain rfl := List.mem_singleton.mp ha
    refine Or.inl ?_
    rw [String.toList_ofList]
    exact h
  rw [list_eq other (plain_listArgs hplain), if_neg]
  intro hall
  cases (Interpolate.all_isNumber_listArgs.mp hall).2 _ (List.mem_singleton_self _)

/-! ## Through `Integer` -/

/-- There is no `jid` before them. -/
theorem take_digits : (s.take 3).map Char.toLower ≠ "jid".toList := by
  obtain ⟨c, cs, rfl, hdigit, hlower⟩ := head_digits h
  intro heq
  have hc : c.toLower = 'j' := (List.cons.inj heq).1
  rw [hlower] at hc
  rw [hc] at hdigit
  exact absurd hdigit (by decide)

theorem update_digits : Updater.update none [s] none = (integer s).map fun n => ([], [.number n]) := by
  have hnil : Updater.Blanks [] := fun c hc => absurd hc List.not_mem_nil
  have hjid := @Updater.isJid_number [] s [] hnil hnil h
  rw [List.append_nil, List.nil_append] at hjid
  have htake : [s].filter Updater.isJid = [s] := List.filter_cons_of_pos hjid.1
  have hleave : [s].filter (!Updater.isJid ·) = [] :=
    List.filter_cons_of_neg (by rw [hjid.1]; decide)
  unfold Updater.update Updater.scanArgv
  simp only [htake, hleave, List.mapM_cons, List.mapM_nil, hjid.2]
  cases integer s <;> rfl

theorem stdin_digits :
    Updater.update none [] (some s) = (integer s).map fun n => ([], [.number n]) := by
  have hafter : afterColon s = s := by
    unfold afterColon
    rw [if_neg (take_digits h)]
  have hline : Updater.stdinJid s = (integer s).map fun n => [.number n] := by
    unfold Updater.stdinJid
    simp only [strip_digits h, hafter, h, if_true]
  have hread : Updater.readStdin (some s) = (integer s).map fun n => [.number n] := by
    unfold Updater.readStdin
    rw [Option.map_some, Option.getD_some, lines_digits h, List.mapM_cons, hline]
    cases integer s <;> rfl
  show (Updater.readStdin (some s) >>= _) = _
  rw [hread]
  cases integer s <;> rfl

theorem loadio_digits : Submitter.loadio [s] []
    = (integer s).map fun n => [Submitter.Hash.set [] "jid" (some (toString n))] := by
  have hdashes : ∀ line ∈ [s], Submitter.isDashes line = false := by
    intro line hline
    obtain rfl := List.mem_singleton.mp hline
    obtain ⟨c, cs, rfl, hdigit, -⟩ := head_digits h
    unfold Submitter.isDashes
    split
    · rename_i heq
      rw [(List.cons.inj heq).1] at hdigit
      exact absurd hdigit (by decide)
    · rfl
  have hstrip : stripText s = s := by
    refine Updater.stripText_of_none fun c hc => ?_
    have hdigit := List.all_eq_true.mp (Bool.and_eq_true_iff.mp h).2 c hc
    rw [isBlank_of_isDigit hdigit, Bool.false_or, Bool.or_eq_false_iff, beq_eq_false_iff_ne,
      beq_eq_false_iff_ne]
    constructor <;> (rintro rfl; exact absurd hdigit (by decide))
  have hafter : Submitter.afterJid s = s := by
    unfold Submitter.afterJid
    rw [if_neg (take_digits h)]
  have hjid : Infile.jidLine s = true := by
    unfold Infile.jidLine
    rw [hstrip, hafter]
    exact h
  have hblank : Infile.blankLine s = false := by
    unfold Infile.blankLine
    rw [hstrip]
    simpa using (Bool.and_eq_true_iff.mp h).1
  rw [Infile.loadio_eq [] hdashes, List.filter_cons_of_pos (by rw [hblank]; rfl), List.filter_nil,
    List.mapM_cons, show Infile.lineJob s = _ from if_pos hjid, hstrip, hafter]
  cases integer s <;> rfl

end Digits

/-! ## When a job id means the same job -/

/-- **When all modes mean the job with the decimal number**: under Ruby 1.8, when `Integer` reads the
    number so. -/
theorem same_job_iff (ruby : Ruby) (s : Text) (h : allDigits s = true) :
    SameJob ruby s (digitsValue s) ↔ ruby = .v1_8 ∧ ReadsDecimal s := by
  rw [← integer_eq_iff h]
  constructor
  · intro hsame
    constructor
    · cases ruby with
      | v1_8 => rfl
      | v1_9 =>
        have hlist := hsame.list (fun _ _ => .ok []) Jobs.empty
        rw [show listed .v1_9 _ s _ = _ from list_digits_raises h _ _] at hlist
        cases hlist
    · have hupdate := hsame.update
      rw [update_digits h] at hupdate
      cases hint : integer s with
      | error e =>
        rw [hint] at hupdate
        cases hupdate
      | ok n =>
        rw [hint] at hupdate
        obtain ⟨-, hjids⟩ := Prod.mk.inj (Except.ok.inj hupdate)
        obtain ⟨hjid, -⟩ := List.cons.inj hjids
        rw [Updater.Jid.number.inj hjid]
  · rintro ⟨rfl, hint⟩
    exact {
      delete := delete_digits h
      list := fun _ db => congrArg Except.ok (list_digits h db)
      update := by rw [update_digits h, hint]; rfl
      stdin := by rw [stdin_digits h, hint]; rfl
      loadio := by rw [loadio_digits h, hint]; rfl }

/-- Job 42 of a queue that Ruby 1.8 works on. -/
theorem same_job_42 : SameJob .v1_8 "42".toList 42 :=
  (same_job_iff .v1_8 "42".toList (by decide)).mpr ⟨rfl, by decide⟩

/-- `010` is job 10 to `delete` and job 8 to `update`; `08` is job 8 to `delete`, and `update`
    raises. -/
theorem job_010_is_two_jobs :
    (designate false "010" = .ok (.jid 10) ∧
      Updater.update none ["010".toList] none = .ok ([], [.number 8]) ∧
      ¬ SameJob .v1_8 "010".toList 10) ∧
    (designate false "08" = .ok (.jid 8) ∧
      Updater.update none ["08".toList] none = .error "invalid value for Integer(): \"08\"") := by
  have hupdate : Updater.update none ["010".toList] none = .ok ([], [.number 8]) := by decide
  refine ⟨⟨by decide, hupdate, fun h => ?_⟩, by decide, by decide⟩
  have hsame := h.update
  rw [hupdate] at hsame
  obtain ⟨-, hjids⟩ := Prod.mk.inj (Except.ok.inj hsame)
  exact absurd hjids (by decide)

end RubyQueue.JobIds
