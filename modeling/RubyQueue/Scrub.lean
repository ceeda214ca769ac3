/-
  Is a deletion all or nothing, over rows and files?

  `scrub` removes the files of a job from inside the callback of the `select`, before the `delete`
  statement and before the commit.  A rollback brings the rows back and not the files; the source
  says so itself (`TODO - make file deletion transactional too`).

  So a deletion that raises has left everything as it was exactly when its attempts never got to a
  file: `all_or_nothing_iff`, over every pattern of attempts.
-/
import RubyQueue.Delete

namespace RubyQueue.Delete

open RubyQueue.JobQueue RubyQueue.Qdb
open RubyQueue.Rotation (Files)

/-- `JobQueue#delete`. -/
def deleteCall (exec : Exec) (given force : Bool) (whats : List String) (retries : Nat)
    (rounds : List (Round (Option Stop))) (s : State Jobs Disk) :
    Option (State Jobs Disk × Option Err) :=
  match designations force whats with
  | .error _ => some (s, some .standard)
  | .ok ds => transaction retries (deleteBlock exec given ds) rounds s

/-- The attempts it makes. -/
def deleteAttempts (exec : Exec) (given force : Bool) (whats : List String) (retries : Nat)
    (rounds : List (Round (Option Stop))) (s : State Jobs Disk) :
    List (Attempt (Option Stop)) :=
  match designations force whats with
  | .error _ => []
  | .ok ds => attemptsMade retries (deleteBlock exec given ds) rounds s

/-- The row callback, the `select`, the `delete` or the commit fails, or the attempt does not get
    to the block. -/
def Fails (exec : Exec) (given force : Bool) (whats : List String) (db : Jobs)
    (a : Attempt (Option Stop)) : Prop :=
  ∀ ds, designations force whats = .ok ds → ∀ disk : Disk,
    a.commits (deleteBlock exec given ds a.script db disk).2 = false

/-- The tuples an attempt gets to, each with the number of its paths that are removed. -/
def reached (exec : Exec) (force : Bool) (whats : List String) (db : Jobs)
    (a : Attempt (Option Stop)) : List (Row × Nat) :=
  match designations force whats with
  | .error _ => []
  | .ok ds => if a.runsBlock then scrubbed a.script (selectRun exec ds db).1.2 else []

/-! ## Removing files -/

/-- `scrub` over a list of tuples. -/
def remove (ps : List (Row × Nat)) (files : Nat → Files) : Nat → Files :=
  ps.foldl (fun files p => Function.update files p.1.jid (without (files p.1.jid) p.2)) files

/-- There is nothing at the paths that are removed. -/
def Untouched (files : Nat → Files) (ps : List (Row × Nat)) : Prop :=
  ∀ p ∈ ps, without (files p.1.jid) p.2 = files p.1.jid

/-- Every file of `f` is a file of `g`. -/
structure Fewer (f g : Files) : Prop where
  stdin : f.stdin = none ∨ f.stdin = g.stdin
  stdout : f.stdout = none ∨ f.stdout = g.stdout
  stderr : f.stderr = none ∨ f.stderr = g.stderr
  data : f.data = none ∨ f.data = g.data

theorem Fewer.refl (f : Files) : Fewer f f := ⟨Or.inr rfl, Or.inr rfl, Or.inr rfl, Or.inr rfl⟩

theorem Fewer.trans {f g h : Files} (hfg : Fewer f g) (hgh : Fewer g h) : Fewer f h := by
  have step : ∀ {x y z : Option String}, x = none ∨ x = y → y = none ∨ y = z →
      x = none ∨ x = z := by
    rintro x y z (rfl | rfl) hyz
    · exact Or.inl rfl
    · exact hyz
  exact ⟨step hfg.stdin hgh.stdin, step hfg.stdout hgh.stdout, step hfg.stderr hgh.stderr,
    step hfg.data hgh.data⟩

theorem Fewer.antisymm {f g : Files} (hfg : Fewer f g) (hgf : Fewer g f) : f = g := by
  have step : ∀ {x y : Option String}, x = none ∨ x = y → y = none ∨ y = x → x = y := by
    rintro x y (rfl | rfl) (h | h)
    · exact h.symm
    · exact h.symm
    · rfl
    · rfl
  have hstdin := step hfg.stdin hgf.stdin
  have hstdout := step hfg.stdout hgf.stdout
  have hstderr := step hfg.stderr hgf.stderr
  have hdata := step hfg.data hgf.data
  cases f
  cases g
  simp_all

theorem fewer_without (f : Files) (n : Nat) : Fewer (without f n) f := by
  unfold without
  constructor <;> dsimp only <;> split <;> simp

/-- Files only go. -/
theorem fewer_remove (ps : List (Row × Nat)) : ∀ (files : Nat → Files) (jid : Nat),
    Fewer (remove ps files jid) (files jid) := by
  induction ps with
  | nil => exact fun files jid => Fewer.refl _
  | cons p ps ih =>
    intro files jid
    refine (ih _ jid).trans ?_
    show Fewer (Function.update files p.1.jid (without (files p.1.jid) p.2) jid) (files jid)
    rw [Function.update_apply]
    split
    · rename_i hjid
      rw [hjid]
      exact fewer_without _ _
    · exact Fewer.refl _

/-- **Nothing comes back**: what is as it was at the end has never changed.  Induction on the
    tuples; after the first of them the files lie between what they were and what they end as. -/
theorem remove_eq_self_iff (files : Nat → Files) (ps : List (Row × Nat)) :
    remove ps files = files ↔ Untouched files ps := by
  induction ps with
  | nil => exact ⟨fun _ p hp => (by cases hp), fun _ => rfl⟩
  | cons p ps ih =>
    have hcons : remove (p :: ps) files
        = remove ps (Function.update files p.1.jid (without (files p.1.jid) p.2)) := rfl
    constructor
    · intro h
      have hfirst : without (files p.1.jid) p.2 = files p.1.jid := by
        refine (fewer_without _ _).antisymm ?_
        have hlast := fewer_remove ps
          (Function.update files p.1.jid (without (files p.1.jid) p.2)) p.1.jid
        rwa [← hcons, h, Function.update_self] at hlast
      rw [hcons, hfirst, Function.update_eq_self] at h
      intro q hq
      rcases List.mem_cons.mp hq with rfl | hq
      · exact hfirst
      · exact ih.mp h q hq
    · intro h
      rw [hcons, h p List.mem_cons_self, Function.update_eq_self]
      exact ih.mpr fun q hq => h q (List.mem_cons_of_mem _ hq)

/-! ## The attempts -/

/-- Whatever the block ends with, its callback has removed what it got to. -/
theorem deleteBlock_files (exec : Exec) (given : Bool) (ds : List (String × Designation))
    (stop : Option Stop) (db : Jobs) (disk : Disk) :
    (deleteBlock exec given ds stop db disk).1.2.files
      = remove (scrubbed stop (selectRun exec ds db).1.2) disk.files := by
  unfold deleteBlock
  dsimp only
  split <;> rfl

/-- **What attempts that fail leave behind**: the table, and the files they did not get to. -/
theorem foldl_attempts {exec : Exec} {given force : Bool} {whats : List String}
    {ds : List (String × Designation)} (hds : designations force whats = .ok ds) :
    ∀ (as : List (Attempt (Option Stop))) (s : State Jobs Disk),
      (∀ a ∈ as, Fails exec given force whats s.db a) →
      (as.foldl (fun s a => (attempt (deleteBlock exec given ds) a s).1) s).db = s.db ∧
      (as.foldl (fun s a => (attempt (deleteBlock exec given ds) a s).1) s).priv.files
        = remove (as.flatMap (reached exec force whats s.db)) s.priv.files := by
  intro as
  induction as with
  | nil => exact fun s _ => ⟨rfl, rfl⟩
  | cons a as ih =>
    intro s hfail
    obtain ⟨hdb, hpriv, -⟩ := attempt_spec (deleteBlock exec given ds) a s
    rw [hfail a List.mem_cons_self ds hds, if_neg (by decide)] at hdb
    obtain ⟨hrestDb, hrestFiles⟩ := ih (attempt (deleteBlock exec given ds) a s).1
      (by rw [hdb]; exact fun b hb => hfail b (List.mem_cons_of_mem _ hb))
    have hfiles : (attempt (deleteBlock exec given ds) a s).1.priv.files
        = remove (reached exec force whats s.db a) s.priv.files := by
      unfold reached
      rw [hpriv, hds]
      dsimp only
      split
      · exact deleteBlock_files exec given ds a.script s.db s.priv
      · rfl
    rw [List.foldl_cons, List.flatMap_cons]
    refine ⟨hrestDb.trans hdb, ?_⟩
    rw [hrestFiles, hfiles, hdb]
    unfold remove
    rw [List.foldl_append]

/-- **When a deletion that raises has left everything as it was.**  The rows are always back.  The
    files are all there exactly when no attempt got to one. -/
theorem all_or_nothing_iff (exec : Exec) (given force : Bool) (whats : List String)
    (retries : Nat) (rounds : List (Round (Option Stop))) (s r : State Jobs Disk) (e : Err)
    (h : deleteCall exec given force whats retries rounds s = some (r, some e))
    (hfail : ∀ a ∈ deleteAttempts exec given force whats retries rounds s,
      Fails exec given force whats s.db a) :
    (r.db = s.db ∧ r.priv.files = s.priv.files) ↔
      ∀ a ∈ deleteAttempts exec given force whats retries rounds s,
        Untouched s.priv.files (reached exec force whats s.db a) := by
  unfold deleteCall at h
  unfold deleteAttempts at hfail ⊢
  cases hds : designations force whats with
  | error msg =>
    rw [hds] at h
    obtain ⟨rfl, -⟩ := Prod.mk.inj (Option.some.inj h)
    exact ⟨fun _ a ha => (by cases ha), fun _ => ⟨rfl, rfl⟩⟩
  | ok ds =>
    rw [hds] at h hfail
    have hr := transaction_foldl h
    dsimp only at hr hfail ⊢
    obtain ⟨hdb, hfiles⟩ := foldl_attempts hds
      (attemptsMade retries (deleteBlock exec given ds) rounds s) { s with inTransaction := true }
      hfail
    rw [hr]
    dsimp only
    rw [hdb, hfiles, remove_eq_self_iff]
    simp only [true_and, Untouched, List.mem_flatMap]
    constructor
    · exact fun hall a ha p hp => hall p ⟨a, ha, hp⟩
    · rintro hall p ⟨a, ha, hp⟩
      exact hall a ha p hp

/-- A queue of a running and a pending job; the pending one has an input. -/
def withInput : State Jobs Disk where
  db := runningAndPending
  priv := ⟨fun jid => if jid = 2 then { stdin := some "1 2 3" } else {}, []⟩

/-- The caller's block raises on its first tuple. -/
def blockRaises : List (Round (Option Stop)) :=
  [{ attempts := [{ script := some (.callback 0 0) }] }]

/-- The commit fails. -/
def commitFails : List (Round (Option Stop)) :=
  [{ attempts := [{ faults := { commit := true }, script := none }] }]

/-- Nothing is lost when the block raises before the first `scrub`. -/
theorem block_raises_early :
    ∃ r, deleteCall orBeforeAnd true false ["2"] 0 blockRaises withInput = some (r, some .standard) ∧
      r.db = withInput.db ∧ r.priv.files = withInput.priv.files := by
  obtain ⟨out, h⟩ : ∃ out, deleteCall orBeforeAnd true false ["2"] 0 blockRaises withInput
    = some (out, some .standard) := ⟨_, rfl⟩
  have hmade : deleteAttempts orBeforeAnd true false ["2"] 0 blockRaises withInput
      = [{ script := some (.callback 0 0) }] := rfl
  refine ⟨out, h, (all_or_nothing_iff _ _ _ _ _ _ _ _ _ h ?_).mpr ?_⟩
  · intro a ha ds hds disk
    obtain rfl := List.mem_singleton.mp (hmade ▸ ha)
    rfl
  · intro a ha p hp
    obtain rfl := List.mem_singleton.mp (hmade ▸ ha)
    have hreached : reached orBeforeAnd false ["2"] withInput.db { script := some (.callback 0 0) }
        = [(jobIn 2 "pending", 0)] := rfl
    obtain rfl := List.mem_singleton.mp (hreached ▸ hp)
    rfl

/-- The commit fails after the input of the job is gone: the job is back, its input is not. -/
theorem delete_loses_files :
    ∃ r, deleteCall orBeforeAnd true false ["2"] 0 commitFails withInput = some (r, some .standard) ∧
      (∀ a ∈ deleteAttempts orBeforeAnd true false ["2"] 0 commitFails withInput,
        Fails orBeforeAnd true false ["2"] withInput.db a) ∧
      jobIn 2 "pending" ∈ r.db ∧ (withInput.priv.files 2).stdin = some "1 2 3" ∧
      (r.priv.files 2).stdin = none := by
  refine ⟨_, rfl, fun a ha ds hds disk => ?_, by decide, rfl, rfl⟩
  have hmade : deleteAttempts orBeforeAnd true false ["2"] 0 commitFails withInput
      = [{ faults := { commit := true }, script := none }] := rfl
  obtain rfl := List.mem_singleton.mp (hmade ▸ ha)
  simp [Attempt.commits]

end RubyQueue.Delete
