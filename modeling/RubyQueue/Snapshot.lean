/-
  When are the rows of a snapshot rows the queue ever had?

  `JobQueue#snapshot` copies the db file page by page under no lock, and takes no journal with it,
  while another process may be overwriting pages in place.  The copy is kept when `PRAGMA
  integrity_check` finds its pages in order, which says nothing about transactions.

  The crux is a moment of the call at which the db file holds a committed state.  Before it only
  pages not copied yet may be written: what is copied is the beginning of the file.  After it only
  pages already copied: what is still to come is the end of the file as it was then.  Together they
  are the file as it was at that moment (`snapshot_consistent`).  `torn_snapshot` is a run with no
  such moment, whose copy passes the check.
-/
import RubyQueue.Base.Run
import Mathlib.Tactic.Common

namespace RubyQueue.Snapshot

open RubyQueue.Run

universe u v

variable {π : Type u} {ρ : Type v}

/-! ## The db file and its writers -/

/-- SQLite: the rows in the pages of a file, and `PRAGMA integrity_check`. -/
structure Engine (π : Type u) (ρ : Type v) where
  rows : List π → ρ
  sound : List π → Bool

/-- One write into the db file. -/
inductive PageWrite (π : Type u)
  | put (i : Nat) (page : π)
  | append (page : π)
  | truncate (n : Nat)
deriving DecidableEq

def PageWrite.apply (file : List π) : PageWrite π → List π
  | .put i page => file.set i page
  | .append page => file ++ [page]
  | .truncate n => file.take n

/-- A write transaction: the file as it was at its begin, which the journal can restore, whether the
    process that began it is alive, and whether that process holds the lock of the queue. -/
structure Txn (π : Type u) where
  original : List π
  alive : Bool
  locked : Bool
deriving DecidableEq

/-! ## The call of `snapshot` -/

/-- An attempt in the loop, or the last resort. -/
inductive Attempt
  | nth (loopno : Nat)
  | last
deriving DecidableEq

/-- Where `snapshot` is. -/
inductive Pc (π : Type u)
  | loop (loopno : Nat)
  | lastResort
  | copying (a : Attempt) (copy : List π)
  | copied (a : Attempt) (copy : List π)
  | checking (a : Attempt) (copy : List π)
  | mending (a : Attempt)
  | returned (copy : List π)
  | returnedTrue
  | raised
deriving DecidableEq

inductive Holder
  | snapshot
  | writer
deriving DecidableEq

/-- The db file, the transaction that writes it or died in it, who holds the lock of the queue, the
    call, and the committed states of the db since the call began. -/
structure St (π : Type u) where
  file : List π
  txn : Option (Txn π) := none
  lock : Option Holder := none
  pc : Pc π := .loop 0
  seen : List (List π) := [file]
deriving DecidableEq

/-- The committed state: the file, with the journal of an unfinished transaction played back. -/
def St.committed (s : St π) : List π :=
  match s.txn with
  | some x => x.original
  | none => s.file

/-- The step of a process that writes: under the lock, or without it as `vacuum` does. -/
inductive WriterStep (π : Type u)
  | begin (locked : Bool)
  | write (w : PageWrite π)
  | commit
  | rollback
  | unlock
  | die
deriving DecidableEq

/-- The lock after the transaction `x` has given it up. -/
def St.lockAfter (s : St π) (x : Txn π) : Option Holder := if x.locked then none else s.lock

/-- A page or the end of the original put back. -/
def PageWrite.restores [DecidableEq π] (original file : List π) : PageWrite π → Bool
  | .put i page => original[i]? == some page
  | .append page => original[file.length]? == some page
  | .truncate n => original.length == n

def stepWriter [DecidableEq π] (s : St π) : WriterStep π → Option (St π)
  | .begin locked =>
    if s.txn.isSome then none
    else if !locked then some { s with txn := some ⟨s.file, true, false⟩ }
    else if s.lock.isSome then none
    else some { s with txn := some ⟨s.file, true, true⟩, lock := some .writer }
  | .write w =>
    match s.txn with
    -- with the process dead, whoever opens the db next plays the journal back
    | some x =>
      if x.alive || w.restores x.original s.file then some { s with file := w.apply s.file }
      else none
    | none => none
  | .commit =>
    match s.txn with
    | some x =>
      if x.alive then some { s with txn := none, lock := s.lockAfter x, seen := s.seen ++ [s.file] }
      else none
    | none => none
  | .rollback =>
    match s.txn with
    | some x =>
      if s.file = x.original then some { s with txn := none, lock := s.lockAfter x } else none
    | none => none
  -- `rotate` gives its lock up inside its transaction
  | .unlock =>
    match s.txn with
    | some x => some { s with txn := some { x with locked := false }, lock := s.lockAfter x }
    | none => none
  | .die =>
    match s.txn with
    | some x =>
      if x.alive then some { s with txn := some ⟨x.original, false, false⟩, lock := s.lockAfter x }
      else none
    | none => none

/-- The step of the process in `snapshot`. -/
inductive CallStep
  | take
  | lock
  | read
  | copyLock
  | check
  | mend (helped : Bool)
  | error (again : Bool)
deriving DecidableEq

/-- The lock after an attempt: that of the last resort is given up with it. -/
def St.lockWithout (s : St π) : Attempt → Option Holder
  | .nth _ => s.lock
  | .last => if s.lock = some .snapshot then none else s.lock

def stepCall (db : Engine π ρ) (retries : Nat) (s : St π) : CallStep → Option (St π)
  | .take =>
    match s.pc with
    | .loop n =>
      if n < retries then some { s with pc := .copying (.nth n) [] }
      else some { s with pc := .lastResort }
    | _ => none
  | .lock =>
    match s.pc with
    | .lastResort =>
      if s.lock.isSome then none
      else some { s with pc := .copying .last [], lock := some .snapshot }
    | _ => none
  -- `FileUtils::cp` of the db: the next page, or the end of the file
  | .read =>
    match s.pc with
    | .copying a copy =>
      match s.file[copy.length]? with
      | some page => some { s with pc := .copying a (copy ++ [page]) }
      | none => some { s with pc := .copied a copy }
    | _ => none
  -- `FileUtils::cp` of the lock file, which closes it
  | .copyLock =>
    match s.pc with
    | .copied a copy => some { s with pc := .checking a copy, lock := s.lockWithout a }
    | _ => none
  | .check =>
    match s.pc with
    | .checking a copy =>
      if db.sound copy then some { s with pc := .returned copy } else some { s with pc := .mending a }
    | _ => none
  -- the value of `take_snapshot` is then that of the check in `recover!`
  | .mend helped =>
    match s.pc with
    | .mending a =>
      if helped then some { s with pc := .returnedTrue }
      else
        match a with
        | .nth n => some { s with pc := .loop (n + 1) }
        | .last => some { s with pc := .raised }
    | _ => none
  -- `write_lock` may run its block again
  | .error again =>
    match s.pc with
    | .copying a _ | .copied a _ | .checking a _ | .mending a =>
      if again && a == .last then some { s with pc := .lastResort, lock := s.lockWithout a }
      else some { s with pc := .raised, lock := s.lockWithout a }
    | _ => none

inductive Label (π : Type u)
  | writer (l : WriterStep π)
  | call (l : CallStep)
deriving DecidableEq

/-- The call is over. -/
def Pc.over : Pc π → Bool
  | .returned _ => true
  | .returnedTrue => true
  | .raised => true
  | _ => false

/-- Any process that writes, or the call, takes a step; nothing is followed after the call. -/
def step [DecidableEq π] (db : Engine π ρ) (retries : Nat) (s : St π) (l : Label π) : Option (St π) :=
  if s.pc.over then none
  else
    match l with
    | .writer l => stepWriter s l
    | .call l => stepCall db retries s l

/-- The call begins, at any moment of the queue. -/
def Called (s : St π) : Prop := s.pc = .loop 0 ∧ s.seen = [s.committed]

/-- What a snapshot is to be: the rows in the copy are rows the queue had during the call. -/
def Consistent (db : Engine π ρ) (s : St π) : Prop :=
  ∀ copy, s.pc = .returned copy → ∃ f ∈ s.seen, db.rows copy = db.rows f

/-! ## Before and after the moment -/

/-- What is copied so far. -/
def Pc.copy? : Pc π → Option (List π)
  | .copying _ copy => some copy
  | .copied _ copy => some copy
  | .checking _ copy => some copy
  | .returned copy => some copy
  | _ => none

/-- No page is still to be copied. -/
def Pc.complete : Pc π → Bool
  | .copying _ _ => false
  | _ => true

/-- Before the moment: a write leaves alone what is copied. -/
def Before (s : St π) : Label π → Prop
  | .writer (.write w) => ∀ copy ∈ s.pc.copy?,
    if s.pc.complete then w.apply s.file = s.file
    else (w.apply s.file).take copy.length = s.file.take copy.length
  | _ => True

/-- After the moment: no other copy is begun, and a write leaves alone what is not copied yet. -/
def After (s : St π) : Label π → Prop
  | .call .take => False
  | .call .lock => False
  | .writer (.write w) => ∀ copy ∈ s.pc.copy?, s.pc.complete = false →
    (w.apply s.file).drop copy.length = s.file.drop copy.length
  | _ => True

instance [DecidableEq π] (s : St π) (l : Label π) : Decidable (Before s l) := by
  unfold Before
  split <;> infer_instance

instance [DecidableEq π] (s : St π) (l : Label π) : Decidable (After s l) := by
  unfold After
  split <;> infer_instance

/-! ## What a step does -/

section Steps

variable {db : Engine π ρ} {retries : Nat} {s t : St π}

/-- What a step of the call does with the copy. -/
inductive Moves (file : List π) (pc : Pc π) : CallStep → Pc π → Prop
  | drop {l : CallStep} {pc' : Pc π} : pc'.copy? = none → Moves file pc l pc'
  | take {a : Attempt} : Moves file pc .take (.copying a [])
  | lock {a : Attempt} : Moves file pc .lock (.copying a [])
  | page {l : CallStep} {a : Attempt} {copy : List π} {page : π} : pc = .copying a copy →
      file[copy.length]? = some page → Moves file pc l (.copying a (copy ++ [page]))
  | eof {l : CallStep} {a : Attempt} {copy : List π} : pc = .copying a copy →
      file[copy.length]? = none → Moves file pc l (.copied a copy)
  | pass {l : CallStep} {pc' : Pc π} : pc.complete = true → pc'.complete = true →
      pc'.copy? = pc.copy? → Moves file pc l pc'

theorem stepCall_moves {l : CallStep} (h : stepCall db retries s l = some t) :
    t.file = s.file ∧ t.txn = s.txn ∧ t.seen = s.seen ∧ Moves s.file s.pc l t.pc := by
  cases l with
  | take =>
    simp only [stepCall] at h
    split at h
    · split at h
      · obtain rfl := Option.some.inj h
        exact ⟨rfl, rfl, rfl, .take⟩
      · obtain rfl := Option.some.inj h
        exact ⟨rfl, rfl, rfl, .drop rfl⟩
    · cases h
  | lock =>
    simp only [stepCall] at h
    split at h
    · split at h
      · cases h
      · obtain rfl := Option.some.inj h
        exact ⟨rfl, rfl, rfl, .lock⟩
    · cases h
  | read =>
    simp only [stepCall] at h
    split at h
    case h_1 a copy hpc =>
      split at h
      case h_1 page hpage =>
        obtain rfl := Option.some.inj h
        exact ⟨rfl, rfl, rfl, .page hpc hpage⟩
      case h_2 hpage =>
        obtain rfl := Option.some.inj h
        exact ⟨rfl, rfl, rfl, .eof hpc hpage⟩
    case h_2 => cases h
  | copyLock =>
    simp only [stepCall] at h
    split at h
    case h_1 a copy hpc =>
      obtain rfl := Option.some.inj h
      exact ⟨rfl, rfl, rfl, .pass (by rw [hpc]; rfl) rfl (by rw [hpc]; rfl)⟩
    case h_2 => cases h
  | check =>
    simp only [stepCall] at h
    split at h
    case h_1 a copy hpc =>
      split at h
      · obtain rfl := Option.some.inj h
        exact ⟨rfl, rfl, rfl, .pass (by rw [hpc]; rfl) rfl (by rw [hpc]; rfl)⟩
      · obtain rfl := Option.some.inj h
        exact ⟨rfl, rfl, rfl, .drop rfl⟩
    case h_2 => cases h
  | mend helped =>
    simp only [stepCall] at h
    split at h
    case h_1 a hpc =>
      cases helped with
      | true =>
        obtain rfl := Option.some.inj h
        exact ⟨rfl, rfl, rfl, .drop rfl⟩
      | false =>
        cases a <;> obtain rfl := Option.some.inj h <;> exact ⟨rfl, rfl, rfl, .drop rfl⟩
    case h_2 => cases h
  | error again =>
    simp only [stepCall] at h
    split at h
    case h_5 => cases h
    all_goals
      split at h <;> obtain rfl := Option.some.inj h <;> exact ⟨rfl, rfl, rfl, .drop rfl⟩

variable [DecidableEq π]

/-- A writer's step does not touch the call; only a write touches the file; and what is committed
    afterwards was committed before or is the file, which is recorded then. -/
theorem stepWriter_effect {l : WriterStep π} (h : stepWriter s l = some t) :
    t.pc = s.pc ∧ (t.file = s.file ∨ ∃ w, l = .write w ∧ t.file = w.apply s.file) ∧
      (∀ f ∈ s.seen, f ∈ t.seen) ∧ (t.committed = s.committed ∨ t.committed ∈ t.seen) := by
  cases l with
  | begin locked =>
    simp only [stepWriter] at h
    split at h
    · cases h
    · have hnone : s.txn = none := by simpa using ‹¬ s.txn.isSome = true›
      have hcommitted : s.file = s.committed := by unfold St.committed; rw [hnone]
      split at h
      · obtain rfl := Option.some.inj h
        exact ⟨rfl, .inl rfl, fun _ => id, .inl hcommitted⟩
      · split at h
        · cases h
        · obtain rfl := Option.some.inj h
          exact ⟨rfl, .inl rfl, fun _ => id, .inl hcommitted⟩
  | write w =>
    simp only [stepWriter] at h
    split at h
    case h_1 x hx =>
      split at h
      · obtain rfl := Option.some.inj h
        refine ⟨rfl, .inr ⟨w, rfl, rfl⟩, fun _ => id, .inl ?_⟩
        unfold St.committed
        rw [hx]
      · cases h
    case h_2 => cases h
  | commit =>
    simp only [stepWriter] at h
    split at h
    case h_1 x hx =>
      split at h
      · obtain rfl := Option.some.inj h
        exact ⟨rfl, .inl rfl, fun f hf => List.mem_append_left _ hf,
          .inr (List.mem_append_right _ (List.mem_singleton_self _))⟩
      · cases h
    case h_2 => cases h
  | rollback =>
    simp only [stepWriter] at h
    split at h
    case h_1 x hx =>
      split at h
      case isTrue horig =>
        obtain rfl := Option.some.inj h
        refine ⟨rfl, .inl rfl, fun _ => id, .inl ?_⟩
        unfold St.committed
        rw [hx]
        exact horig
      case isFalse => cases h
    case h_2 => cases h
  | unlock =>
    simp only [stepWriter] at h
    split at h
    case h_1 x hx =>
      obtain rfl := Option.some.inj h
      refine ⟨rfl, .inl rfl, fun _ => id, .inl ?_⟩
      unfold St.committed
      rw [hx]
    case h_2 => cases h
  | die =>
    simp only [stepWriter] at h
    split at h
    case h_1 x hx =>
      split at h
      · obtain rfl := Option.some.inj h
        refine ⟨rfl, .inl rfl, fun _ => id, .inl ?_⟩
        unfold St.committed
        rw [hx]
      · cases h
    case h_2 => cases h

/-- One step, of the one kind or the other. -/
theorem step_effect {l : Label π} (h : step db retries s l = some t) :
    (t.pc = s.pc ∧ (t.file = s.file ∨ ∃ w, l = .writer (.write w) ∧ t.file = w.apply s.file) ∧
      (∀ f ∈ s.seen, f ∈ t.seen) ∧ (t.committed = s.committed ∨ t.committed ∈ t.seen)) ∨
    (t.file = s.file ∧ t.txn = s.txn ∧ t.seen = s.seen ∧
      ∃ l', l = .call l' ∧ Moves s.file s.pc l' t.pc) := by
  unfold step at h
  split at h
  · cases h
  cases l with
  | writer l =>
    obtain ⟨hpc, hfile, hseen, hcommitted⟩ := stepWriter_effect h
    refine .inl ⟨hpc, ?_, hseen, hcommitted⟩
    rcases hfile with hfile | ⟨w, rfl, hfile⟩
    · exact .inl hfile
    · exact .inr ⟨w, rfl, hfile⟩
  | call l =>
    obtain ⟨hfile, htxn, hseen, hmoves⟩ := stepCall_moves h
    exact .inr ⟨hfile, htxn, hseen, l, rfl, hmoves⟩

end Steps

/-! ## The three invariants -/

section Invariants

variable {db : Engine π ρ} {retries : Nat} {s t : St π} {l : Label π}

/-- What is committed now is among the committed states of the call. -/
def Recorded (s : St π) : Prop := s.committed ∈ s.seen

/-- Before the moment: the copy is the beginning of the file. -/
def Prefix (s : St π) : Prop :=
  ∀ copy, s.pc.copy? = some copy →
    if s.pc.complete then copy = s.file else copy = s.file.take copy.length

/-- After the moment: the copy is the beginning of the file as it was, and the rest of the file is
    as it was. -/
def Split (file : List π) (s : St π) : Prop :=
  file ∈ s.seen ∧ ∀ copy, s.pc.copy? = some copy →
    if s.pc.complete then copy = file
    else copy = file.take copy.length ∧ s.file.drop copy.length = file.drop copy.length

/-- The file read to its end is what was read of it. -/
theorem take_eof {file : List π} {k : Nat} (h : file[k]? = none) : file.take k = file := by
  rw [List.getElem?_eq_none_iff] at h
  exact List.take_of_length_le h

theorem take_concat {file copy : List π} {page : π} (hcopy : copy = file.take copy.length)
    (hpage : file[copy.length]? = some page) :
    copy ++ [page] = file.take (copy ++ [page]).length := by
  rw [List.length_append, List.length_singleton, List.take_add_one, hpage, ← hcopy]
  rfl

/-- At the moment, where the file is committed, the one becomes the other. -/
theorem split_of_prefix (hs : Prefix s) (hrec : Recorded s) (hfile : s.file = s.committed) :
    Split s.file s := by
  refine ⟨by rw [hfile]; exact hrec, ?_⟩
  intro copy hcopy
  have hold := hs copy hcopy
  split at hold <;> rename_i hcomplete
  · rw [if_pos hcomplete]
    exact hold
  · rw [if_neg hcomplete]
    exact ⟨hold, rfl⟩

variable [DecidableEq π]

theorem recorded_step (hs : Recorded s) (h : step db retries s l = some t) : Recorded t := by
  unfold Recorded at hs ⊢
  rcases step_effect h with ⟨-, -, hseen, heq | hmem⟩ | ⟨hfile, htxn, hseen, -⟩
  · rw [heq]
    exact hseen _ hs
  · exact hmem
  · have hcommitted : t.committed = s.committed := by
      unfold St.committed
      rw [htxn, hfile]
    rw [hcommitted, hseen]
    exact hs

theorem prefix_step (hs : Prefix s) (hl : Before s l) (h : step db retries s l = some t) :
    Prefix t := by
  intro copy hcopy
  rcases step_effect h with ⟨hpc, hfile, -, -⟩ | ⟨hfile, -, -, l', rfl, hmoves⟩
  · rw [hpc] at hcopy ⊢
    have hold := hs copy hcopy
    rcases hfile with hfile | ⟨w, rfl, hfile⟩
    · rw [hfile]
      exact hold
    · have hleft := hl copy hcopy
      split at hold <;> rename_i hcomplete
      · rw [if_pos hcomplete] at hleft ⊢
        rw [hfile, hleft]
        exact hold
      · rw [if_neg hcomplete] at hleft ⊢
        rw [hfile, hleft]
        exact hold
  · rw [hfile]
    generalize ht : t.pc = pc' at hcopy hmoves ⊢
    cases hmoves with
    | drop hnone =>
      rw [hnone] at hcopy
      cases hcopy
    | take =>
      obtain rfl := Option.some.inj hcopy
      rfl
    | lock =>
      obtain rfl := Option.some.inj hcopy
      rfl
    | page hpc hpage =>
      obtain rfl := Option.some.inj hcopy
      have hold := hs _ (by rw [hpc]; rfl)
      rw [hpc] at hold
      exact take_concat hold hpage
    | eof hpc hpage =>
      obtain rfl := Option.some.inj hcopy
      have hold := hs _ (by rw [hpc]; rfl)
      rw [hpc] at hold
      exact hold.trans (take_eof hpage)
    | pass hcomplete hcomplete' heq =>
      rw [heq] at hcopy
      have hold := hs copy hcopy
      rw [if_pos hcomplete] at hold
      rw [if_pos hcomplete']
      exact hold

theorem split_step {file : List π} (hs : Split file s) (hl : After s l)
    (h : step db retries s l = some t) : Split file t := by
  obtain ⟨hmem, hcopied⟩ := hs
  rcases step_effect h with ⟨hpc, hfile, hseen, -⟩ | ⟨hfile, -, hseen, l', rfl, hmoves⟩
  · refine ⟨hseen _ hmem, ?_⟩
    intro copy hcopy
    rw [hpc] at hcopy ⊢
    have hold := hcopied copy hcopy
    rcases hfile with hfile | ⟨w, rfl, hfile⟩
    · rw [hfile]
      exact hold
    · split at hold <;> rename_i hcomplete
      · rw [if_pos hcomplete]
        exact hold
      · rw [if_neg hcomplete, hfile, hl copy hcopy (by simpa using hcomplete)]
        exact hold
  · refine ⟨by rw [hseen]; exact hmem, ?_⟩
    intro copy hcopy
    rw [hfile]
    generalize ht : t.pc = pc' at hcopy hmoves ⊢
    cases hmoves with
    | drop hnone =>
      rw [hnone] at hcopy
      cases hcopy
    | take => exact hl.elim
    | lock => exact hl.elim
    | page hpc hpage =>
      obtain rfl := Option.some.inj hcopy
      have hold := hcopied _ (by rw [hpc]; rfl)
      rw [hpc] at hold
      obtain ⟨htaken, hrest⟩ := hold
      rw [← List.head?_drop, hrest, List.head?_drop] at hpage
      refine ⟨take_concat htaken hpage, ?_⟩
      rw [List.length_append, List.length_singleton, ← List.drop_drop, ← List.drop_drop, hrest]
    | eof hpc hpage =>
      obtain rfl := Option.some.inj hcopy
      have hold := hcopied _ (by rw [hpc]; rfl)
      rw [hpc] at hold
      obtain ⟨htaken, hrest⟩ := hold
      rw [← List.head?_drop, hrest, List.head?_drop] at hpage
      exact htaken.trans (take_eof hpage)
    | pass hcomplete hcomplete' heq =>
      rw [heq] at hcopy
      have hold := hcopied copy hcopy
      rw [if_pos hcomplete] at hold
      rw [if_pos hcomplete']
      exact hold

/-- **Snapshot consistency.**  Let a copy begin in any run of the call.  When there is a moment from
    then on at which the db file holds a committed state, and every step before it writes only pages
    not copied yet, and every step after it only pages already copied, the snapshot that is returned
    has rows the queue had during the call. -/
theorem snapshot_consistent (db : Engine π ρ) (retries : Nat) {s₀ m s : St π}
    (hcall : Reach Called (step db retries) (fun _ _ => True) s₀) {a : Attempt}
    (hcopy : s₀.pc = .copying a [])
    (hbefore : Reach (· = s₀) (step db retries) Before m) (hmoment : m.file = m.committed)
    (hafter : Reach (· = m) (step db retries) After s) : Consistent db s := by
  have hrecorded : Recorded m := by
    have h₀ : Recorded s₀ := by
      refine hcall.invariant ?_ fun _ _ _ hs _ h => recorded_step hs h
      intro s hs
      unfold Recorded
      rw [hs.2]
      exact List.mem_singleton_self _
    exact hbefore.invariant (fun _ h => h ▸ h₀) fun _ _ _ hs _ h => recorded_step hs h
  have hprefix : Prefix m := by
    refine hbefore.invariant ?_ fun _ _ _ hs hl h => prefix_step hs hl h
    rintro _ rfl copy hc
    rw [hcopy] at hc ⊢
    obtain rfl := Option.some.inj hc
    rfl
  have hsplit : Split m.file s :=
    hafter.invariant (fun _ h => by rw [h]; exact split_of_prefix hprefix hrecorded hmoment)
      fun _ _ _ hs hl h => split_step hs hl h
  intro copy hret
  have hcopied := hsplit.2 copy (by rw [hret]; rfl)
  rw [hret] at hcopied
  exact ⟨m.file, hsplit.1, by rw [show copy = m.file from hcopied]⟩

end Invariants

/-! ## Runs -/

/-- Pages of rows, each a jid and a state; a page of a sound db has a row. -/
def rowPages : Engine (List (Nat × String)) (List (Nat × String)) where
  rows := List.flatten
  sound := fun pages => pages.all fun page => !page.isEmpty

/-- A queue of two pages, when the call begins. -/
def twoPages : St (List (Nat × String)) where
  file := [[(1, "running")], [(2, "pending")]]

theorem called_twoPages : Called twoPages := ⟨rfl, rfl⟩

/-- One transaction finishes job 1 and starts job 2. -/
def reapAndStart : List (Label (List (Nat × String))) :=
  [.writer (.begin true), .writer (.write (.put 0 [(1, "finished")])),
    .writer (.write (.put 1 [(2, "running")])), .writer .commit]

/-- Job 1 is finished and a third job submitted: the page of job 1 has been copied, that of job 3 is
    written when the second page has been copied too. -/
def reapAndSubmit : List (Label (List (Nat × String))) :=
  [.call .read, .writer (.begin true), .writer (.write (.put 0 [(1, "dead")])), .call .read,
    .call .read, .writer (.write (.append [(3, "pending")])), .writer .commit, .call .copyLock,
    .call .check]

/-- The copy is begun, one transaction runs before the moment and another after it. -/
theorem snapshot_consistent_run : ∃ s, s.pc = .returned [[(1, "finished")], [(2, "running")]] ∧
    s.file = [[(1, "dead")], [(2, "running")], [(3, "pending")]] ∧ Consistent rowPages s := by
  obtain ⟨s₀, hs₀, hp₀⟩ := @exists_of_any _ _ (step rowPages 16)
    (fun s => s.pc = .copying (.nth 0) []) [.call .take] twoPages (by decide)
  obtain ⟨m, hm, hpm⟩ := @exists_of_any _ _ (checked (step rowPages 16) fun s l => decide (Before s l))
    (fun m => m.file = m.committed ∧
      (exec (checked (step rowPages 16) fun s l => decide (After s l)) reapAndSubmit m).any fun s =>
        s.pc = .returned [[(1, "finished")], [(2, "running")]] ∧
        s.file = [[(1, "dead")], [(2, "running")], [(3, "pending")]])
    reapAndStart s₀ (by
      obtain rfl : { twoPages with pc := .copying (.nth 0) [] } = s₀ := Option.some.inj hs₀
      decide)
  simp only [decide_eq_true_eq] at hp₀ hpm
  obtain ⟨hmoment, hrest⟩ := hpm
  obtain ⟨s, hs, hps⟩ := exists_of_any hrest
  simp only [decide_eq_true_eq] at hps
  have hcall : Reach Called (step rowPages 16) (fun _ _ => True) s₀ :=
    (Reach.init called_twoPages).exec (along_true _ _) hs₀
  have hbegun : Reach (· = s₀) (step rowPages 16) Before s₀ := Reach.init rfl
  have hbefore := (Reach.checked (fun _ _ _ h => of_decide_eq_true h) hbegun hm).1
  have hcommitted : Reach (· = m) (step rowPages 16) After m := Reach.init rfl
  have hafter := (Reach.checked (fun _ _ _ h => of_decide_eq_true h) hcommitted hs).1
  exact ⟨s, hps.1, hps.2, snapshot_consistent rowPages 16 hcall hp₀ hbefore hmoment hafter⟩

/-- The first transaction again, between the copies of the two pages. -/
def tornRun : List (Label (List (Nat × String))) :=
  [.call .take, .call .read] ++ reapAndStart ++
    [.call .read, .call .read, .call .copyLock, .call .check]

/-- A copy that passes its check and has both jobs running, as the queue never had. -/
theorem torn_snapshot : ∃ s, Reach Called (step rowPages 16) (fun _ _ => True) s ∧
    s.pc = .returned [[(1, "running")], [(2, "running")]] ∧
    s.seen = [[[(1, "running")], [(2, "pending")]], [[(1, "finished")], [(2, "running")]]] ∧
    ¬ Consistent rowPages s := by
  obtain ⟨s, hs, hp⟩ := @exists_of_any _ _ (step rowPages 16) (fun s =>
    s.pc = .returned [[(1, "running")], [(2, "running")]] &&
    s.seen = [[[(1, "running")], [(2, "pending")]], [[(1, "finished")], [(2, "running")]]])
    tornRun twoPages (by decide)
  simp only [Bool.and_eq_true, decide_eq_true_eq] at hp
  obtain ⟨hpc, hseen⟩ := hp
  refine ⟨s, (Reach.init called_twoPages).exec (along_true _ _) hs, hpc, hseen, ?_⟩
  intro h
  obtain ⟨f, hf, hrows⟩ := h _ hpc
  rw [hseen] at hf
  revert f
  decide

end RubyQueue.Snapshot
