/-
  Does the queue lock protect `rotate` and `backup` while they copy the queue?

  `Rotater#rotate` and `Backer#backup` hold an exclusive record lock on `<queue>/lock`
  (`QDB#aquire_lock`) while their body runs, and the body copies the queue directory in the same
  process.  `FileUtils.cp_r` opens, reads and CLOSES every file of the directory, the lock file
  among them; and a process loses its record lock on a file with the first close.

  `isolated_iff` says it for any body: it is isolated exactly when it closes no descriptor of the
  lock file.  An ordinary transaction is; a body that copies the directory never is.
-/
import RubyQueue.Base.Run
import RubyQueue.Base.RecordLock

namespace RubyQueue.Isolation

open RubyQueue.Run RubyQueue.RecordLock

/-! ## Files and the calls of `cp_r` -/

/-- A file, by its inode, or a directory. -/
inductive Tree
  | file (inode : Nat)
  | dir (entries : List (String × Tree))

/-- The calls of a body, as far as they matter for locks: on the queue's files, or anything else. -/
inductive Call
  | openFile (inode : Nat)
  | closeFile (inode : Nat)
  | other
deriving DecidableEq, Repr

mutual

/-- `FileUtils.cp_r`: a file is opened, its copy written, and both are closed; a directory is made
    and its entries are copied. -/
def cpR : Tree → List Call
  | .file i => [.openFile i, .other, .closeFile i]
  | .dir entries => .other :: cpREntries entries

def cpREntries : List (String × Tree) → List Call
  | [] => []
  | (_, t) :: entries => cpR t ++ cpREntries entries

end

/-- A queue directory under its lock: `aquire_lock` has opened `lock`, which creates it when it is
    not there. -/
structure QueueDir where
  entries : List (String × Tree)
  lock : Nat
  hasLock : ("lock", Tree.file lock) ∈ entries

/-- The two commands that copy the queue under its lock. -/
inductive Command
  | rotate
  | backup
deriving DecidableEq, Repr

/-- The body of the command.  After the copy `rotate` opens the copy as a queue, deletes there and
    deletes here: no call on the queue's lock file. -/
def body (dir : QueueDir) : Command → List Call
  | .rotate => cpR (.dir dir.entries) ++ [.other, .other, .other]
  | .backup => cpR (.dir dir.entries)

theorem closeFile_mem_cpREntries {name : String} {i : Nat} :
    ∀ {entries : List (String × Tree)}, (name, Tree.file i) ∈ entries →
      Call.closeFile i ∈ cpREntries entries
  | [], h => by cases h
  | (n, t) :: entries, h => by
    rw [cpREntries]
    rcases List.mem_cons.mp h with heq | h
    · cases heq
      exact List.mem_append_left _ (by simp [cpR])
    · exact List.mem_append_right _ (closeFile_mem_cpREntries h)

/-- Both commands close the lock file. -/
theorem closeFile_mem_body (dir : QueueDir) (command : Command) :
    Call.closeFile dir.lock ∈ body dir command := by
  have hcopy : Call.closeFile dir.lock ∈ cpR (.dir dir.entries) := by
    rw [cpR]
    exact List.mem_cons_of_mem _ (closeFile_mem_cpREntries dir.hasLock)
  cases command with
  | rotate => exact List.mem_append_left _ hcopy
  | backup => exact hcopy

/-! ## One process in its body, and all others -/

/-- Where the process is: before the lock, in its body, or past it. -/
inductive Phase
  | waiting
  | inBody (rest : List Call)
  | done
deriving DecidableEq, Repr

structure State where
  locks : Locks Nat Nat
  phase : Phase

/-- The process takes the lock, makes its next call or leaves its body; or another process takes
    or drops a lock on the file. -/
inductive Label
  | acquire
  | next
  | leave
  | lockBy (q : Nat) (k : Kind)
  | unlockBy (q : Nat)
deriving DecidableEq, Repr

section System

variable (calls : List Call) (lock p : Nat)

def step (s : State) : Label → Option State
  | .acquire =>
    match s.phase with
    | .waiting => (s.locks.setlk lock p .exclusive).map fun l => ⟨l, .inBody calls⟩
    | _ => none
  | .next =>
    match s.phase with
    | .inBody (.closeFile i :: rest) => some ⟨s.locks.drop i p, .inBody rest⟩
    | .inBody (_ :: rest) => some ⟨s.locks, .inBody rest⟩
    | _ => none
  | .leave =>
    match s.phase with
    | .inBody [] => some ⟨s.locks.drop lock p, .done⟩
    | _ => none
  | .lockBy q k =>
    if q = p then none else (s.locks.setlk lock q k).map fun l => { s with locks := l }
  | .unlockBy q => if q = p then none else some { s with locks := s.locks.drop lock q }

/-- Nobody holds a lock yet. -/
def Initial (s : State) : Prop := s = ⟨Locks.none, .waiting⟩

/-- As long as the process is in its body, no other process holds a lock on the file. -/
def Isolated : Prop :=
  ∀ s, Reach Initial (step calls lock p) (fun _ _ => True) s →
    ∀ rest, s.phase = .inBody rest → ∀ q, q ≠ p → ¬ s.locks.Holds lock q

end System

variable {calls : List Call} {lock p : Nat}

/-! ## A body that leaves the lock file alone -/

/-- In its body the process holds the lock, and no call to come closes the file. -/
def Guarded (lock p : Nat) (s : State) : Prop :=
  ∀ rest, s.phase = .inBody rest →
    (p, Kind.exclusive) ∈ s.locks.on lock ∧ Call.closeFile lock ∉ rest

theorem guarded_step (hcalls : Call.closeFile lock ∉ calls) {s t : State} {l : Label}
    (hs : Guarded lock p s) (h : step calls lock p s l = some t) : Guarded lock p t := by
  cases l with
  | acquire =>
    simp only [step] at h
    split at h
    · obtain ⟨locks, hset, rfl⟩ := Option.map_eq_some_iff.mp h
      intro rest hrest
      cases hrest
      refine ⟨?_, hcalls⟩
      rw [(setlk_some hset).2, if_pos rfl]
      exact List.mem_cons_self
    · cases h
  | next =>
    simp only [step] at h
    split at h
    · -- a close of another file
      rename_i i rest hphase
      cases h
      obtain ⟨hheld, hno⟩ := hs _ hphase
      intro rest' hrest'
      cases hrest'
      have hi : i ≠ lock := fun heq => hno (heq ▸ List.mem_cons_self)
      refine ⟨?_, fun hmem => hno (List.mem_cons_of_mem _ hmem)⟩
      show _ ∈ (s.locks.drop i p).on lock
      rw [on_drop, if_neg hi.symm]
      exact hheld
    · rename_i c rest hphase
      cases h
      obtain ⟨hheld, hno⟩ := hs _ hphase
      intro rest' hrest'
      cases hrest'
      exact ⟨hheld, fun hmem => hno (List.mem_cons_of_mem _ hmem)⟩
    · cases h
  | leave =>
    simp only [step] at h
    split at h
    · cases h
      intro rest hrest
      cases hrest
    · cases h
  | lockBy q k =>
    simp only [step] at h
    split at h
    · cases h
    rename_i hq
    obtain ⟨locks, hset, rfl⟩ := Option.map_eq_some_iff.mp h
    intro rest hrest
    obtain ⟨hheld, -⟩ := hs rest hrest
    -- the lock is refused as long as `p` holds it
    have hno := not_grants_of_exclusive hq hheld k
    rw [(setlk_some hset).1] at hno
    cases hno
  | unlockBy q =>
    simp only [step] at h
    split at h
    · cases h
    rename_i hq
    cases h
    intro rest hrest
    obtain ⟨hheld, hno⟩ := hs rest hrest
    refine ⟨?_, hno⟩
    show _ ∈ (s.locks.drop lock q).on lock
    rw [on_drop, if_pos rfl]
    exact mem_others.mpr ⟨hheld, fun heq => hq heq.symm⟩

theorem isolated_of_no_close (hcalls : Call.closeFile lock ∉ calls) : Isolated calls lock p := by
  intro s hs rest hrest q hq hholds
  have hguard : Guarded lock p s := by
    refine Reach.invariant (I := Guarded lock p) ?_ (fun s l t hi _ h => guarded_step hcalls hi h) hs
    rintro s rfl rest hrest
    cases hrest
  obtain ⟨k, hk⟩ := hholds
  exact hq (exclusive_only (hguard rest hrest).1 hk)

/-! ## A body that closes it -/

/-- The process runs through the first calls of its body while everybody else looks on. -/
theorem run_calls : ∀ (pre rest : List Call) (locks : Locks Nat Nat),
    Reach Initial (step calls lock p) (fun _ _ => True) ⟨locks, .inBody (pre ++ rest)⟩ →
    (∀ i, ∀ a ∈ locks.on i, a.1 = p) →
    ∃ locks', Reach Initial (step calls lock p) (fun _ _ => True) ⟨locks', .inBody rest⟩ ∧
      ∀ i, ∀ a ∈ locks'.on i, a.1 = p := by
  intro pre
  induction pre with
  | nil => exact fun rest locks hr hp => ⟨locks, hr, hp⟩
  | cons c pre ih =>
    intro rest locks hr hp
    cases c with
    | closeFile i =>
      refine ih rest (locks.drop i p) (Reach.step hr trivial (a := .next) rfl) ?_
      intro j a ha
      rw [on_drop] at ha
      split at ha
      · exact hp i a (mem_others.mp ha).1
      · exact hp j a ha
    | openFile i => exact ih rest locks (Reach.step hr trivial (a := .next) rfl) hp
    | other => exact ih rest locks (Reach.step hr trivial (a := .next) rfl) hp

/-- **Exactly the bodies that never close the lock file are isolated.** -/
theorem isolated_iff : Isolated calls lock p ↔ Call.closeFile lock ∉ calls := by
  refine ⟨fun hiso hmem => ?_, isolated_of_no_close⟩
  obtain ⟨pre, post, rfl⟩ := List.append_of_mem hmem
  -- take the lock …
  have hgrant : (Locks.none : Locks Nat Nat).grants lock p .exclusive = true :=
    grants_of_free (fun a ha => by cases ha) _
  obtain ⟨locks₀, hset₀⟩ : ∃ l, (Locks.none : Locks Nat Nat).setlk lock p .exclusive = some l := by
    unfold Locks.setlk
    exact ⟨_, dif_pos hgrant⟩
  have hacquired : Reach Initial (step (pre ++ .closeFile lock :: post) lock p) (fun _ _ => True)
      ⟨locks₀, .inBody (pre ++ .closeFile lock :: post)⟩ := by
    refine Reach.step (Reach.init rfl) trivial (a := .acquire) ?_
    simp [step, hset₀]
  have honly₀ : ∀ i, ∀ a ∈ locks₀.on i, a.1 = p := by
    intro i a ha
    rw [(setlk_some hset₀).2] at ha
    split at ha
    · rcases List.mem_cons.mp ha with rfl | ha
      · rfl
      · cases (mem_others.mp ha).1
    · cases ha
  -- … run the body up to the close, and close …
  obtain ⟨locks₁, hreach₁, honly₁⟩ := run_calls pre _ locks₀ hacquired honly₀
  have hclosed : Reach Initial (step (pre ++ .closeFile lock :: post) lock p) (fun _ _ => True)
      ⟨locks₁.drop lock p, .inBody post⟩ := Reach.step hreach₁ trivial (a := .next) rfl
  have hfree : ∀ a ∈ (locks₁.drop lock p).on lock, a.1 = p + 1 := by
    intro a ha
    rw [on_drop, if_pos rfl] at ha
    exact absurd (honly₁ lock a (mem_others.mp ha).1) (mem_others.mp ha).2
  -- … and another process gets the lock
  obtain ⟨locks₂, hset₂⟩ : ∃ l, (locks₁.drop lock p).setlk lock (p + 1) .exclusive = some l := by
    unfold Locks.setlk
    exact ⟨_, dif_pos (grants_of_free hfree _)⟩
  have hstolen : Reach Initial (step (pre ++ .closeFile lock :: post) lock p) (fun _ _ => True)
      ⟨locks₂, .inBody post⟩ := by
    refine Reach.step hclosed trivial (a := .lockBy (p + 1) .exclusive) ?_
    simp [step, hset₂]
  refine hiso _ hstolen post rfl (p + 1) (by omega) ⟨.exclusive, ?_⟩
  show _ ∈ locks₂.on lock
  rw [(setlk_some hset₂).2, if_pos rfl]
  exact List.mem_cons_self

/-- **Neither command is isolated, on any queue.**  For every queue directory, both commands and
    every process there is an interleaving in which another process holds the lock while the body
    runs. -/
theorem copying_is_not_isolated (command : Command) (dir : QueueDir) (p : Nat) :
    ¬ Isolated (body dir command) dir.lock p := by
  rw [isolated_iff]
  exact fun hno => hno (closeFile_mem_body dir command)

/-- The files of a fresh queue. -/
def freshQueue : QueueDir where
  entries := [("db", .file 10), ("db.schema", .file 11), ("lock", .file 12), ("bin", .dir []),
    ("stdin", .dir []), ("stdout", .dir []), ("stderr", .dir []), ("data", .dir [])]
  lock := 12
  hasLock := by simp

theorem rotate_freshQueue_not_isolated :
    ¬ Isolated (body freshQueue .rotate) freshQueue.lock 100 ∧
      ¬ Isolated (body freshQueue .backup) freshQueue.lock 100 := by
  rw [isolated_iff, isolated_iff]
  decide

end RubyQueue.Isolation
