/-
  Does the pidfile keep a second feeder of a queue off the host?

  `Feeder#gen_pidfile` opens the pidfile, takes a record lock on it, reads the pid in it and tests
  whether that process is alive; with the lock and without a live owner it writes its own pid, and
  the process feeds.  Its `at_exit` handler removes the file, unlocks it and closes it.

  Two things are wrong with it.  `IO::read` of the path opens and CLOSES the file, and with that the
  process drops the lock it has just taken: between that read and the write nothing excludes
  anybody.  And the file is removed by its path while others may have it open: they then lock a
  file nobody else will find.  `Careful` forbids exactly these two overlaps, and along the runs that
  keep to it there is one feeder (`one_feeder`); without it there can be two
  (`two_feeders_after_read`).
-/
import RubyQueue.Base.Run
import RubyQueue.Base.RecordLock

namespace RubyQueue.Pidfile

open RubyQueue.Run RubyQueue.RecordLock

/-! ## The processes of the host -/

/-- Where a process is.  `last` says that it is in the second of the two rounds of `gen_pidfile`,
    `file` is the inode its `@pidfile` is open on and `locked` what its `posixlock` returned. -/
inductive Phase
  | absent
  -- a process, but not in `gen_pidfile` and not past it
  | unrelated
  | opening (last : Bool)
  | reopening (last : Bool)
  | locking (last : Bool) (file : Nat)
  | reading (last : Bool) (file : Nat) (locked : Bool)
  | checking (last : Bool) (file : Nat) (locked : Bool) (pid : Nat)
  | unlinking (last : Bool)
  -- `locked and no_other_feeder`: about to print, and then to truncate
  | passed (file : Nat)
  | printed (file : Nat)
  | feeding (file : Nat)
  | rejecting
  -- the `at_exit` handler
  | removing (file : Nat)
  | unlocking (file : Nat)
  | closing (file : Nat)
deriving DecidableEq, Repr

/-- The pidfile and the processes.  `content` is what `Integer` makes of the text of a file: `none`
    for an empty file or one that does not hold a number. -/
structure State where
  phase : Nat → Phase
  path : Option Nat
  content : Nat → Option Nat
  locks : Locks Nat Nat
  nextInode : Nat

/-- Who takes a step. -/
inductive Label
  | spawn (p : Nat)
  | exit (p : Nat)
  | start (p : Nat)
  -- the next file operation of `p`
  | run (p : Nat)
  -- `Process.kill` raises something else than `ESRCH`
  | denied (p : Nat)
  -- the new pid stands over the old text, and `v` is what the whole reads as
  | print (p : Nat) (v : Option Nat)
  | quit (p : Nat)
deriving DecidableEq, Repr

/-- `Util.alive?`: signal 0 can be sent to the process; pid 0 is the caller's own group. -/
def alive (s : State) (pid : Nat) : Bool := pid == 0 || s.phase pid != .absent

/-- `p` goes on to `phase`. -/
def State.move (s : State) (p : Nat) (phase : Phase) : State :=
  { s with phase := Function.update s.phase p phase }

/-- The process ends, with all its descriptors. -/
def State.gone (s : State) (p : Nat) : State :=
  { s.move p .absent with locks := s.locks.dropAll p }

/-- `Integer(IO::read(@pidfilepath)) rescue nil`. -/
def ioRead (s : State) (p : Nat) : Option Nat × Locks Nat Nat :=
  match s.path with
  | none => (none, s.locks)
  | some i => (s.content i, s.locks.drop i p)

/-- The end of a round that neither broke out of the loop nor was the last. -/
def nextRound (last : Bool) : Phase :=
  if last then .rejecting else .opening true

/-- What follows the read: without a pid, `no_other_feeder`. -/
def afterRead (last : Bool) (file : Nat) (locked : Bool) : Option Nat → Phase
  | none => if locked then .passed file else .rejecting
  | some pid => .checking last file locked pid

/-- What follows the liveness check. -/
def afterCheck (s : State) (p : Nat) (last : Bool) (file : Nat) (locked : Bool) (pid : Nat) :
    Phase :=
  if alive s pid then
    if locked && p == pid then .passed file else .rejecting
  else if locked then .passed file
  else .unlinking last

/-- The next file operation of a process. -/
def runStep (s : State) (p : Nat) : Option State :=
  match s.phase p with
  | .opening last =>
    -- `CREAT | EXCL`
    match s.path with
    | none =>
      some { s.move p (.locking last s.nextInode) with
        path := some s.nextInode
        content := Function.update s.content s.nextInode none
        nextInode := s.nextInode + 1 }
    | some _ => some (s.move p (.reopening last))
  | .reopening last =>
    match s.path with
    | none => some (s.gone p)
    | some i => some (s.move p (.locking last i))
  | .locking last i =>
    match s.locks.setlk i p .exclusive with
    | some l => some { s.move p (.reading last i true) with locks := l }
    | none => some (s.move p (.reading last i false))
  | .reading last i locked =>
    some { s.move p (afterRead last i locked (ioRead s p).1) with locks := (ioRead s p).2 }
  | .checking last i locked pid => some (s.move p (afterCheck s p last i locked pid))
  | .unlinking last => some { s.move p (nextRound last) with path := none }
  | .printed i =>
    some { s.move p (.feeding i) with content := Function.update s.content i (some p) }
  | .rejecting => some (s.gone p)
  | .removing i => some { s.move p (.unlocking i) with path := none }
  | .unlocking i => some { s.move p (.closing i) with locks := s.locks.drop i p }
  | .closing _ => some (s.gone p)
  | _ => none

def step (s : State) : Label → Option State
  | .spawn p => if s.phase p = .absent then some (s.move p .unrelated) else none
  | .exit p => if s.phase p = .unrelated then some (s.gone p) else none
  | .start p => if s.phase p = .unrelated then some (s.move p (.opening false)) else none
  | .run p => runStep s p
  | .denied p =>
    match s.phase p with
    | .checking last _ _ _ => some (s.move p (nextRound last))
    | _ => none
  | .print p v =>
    match s.phase p with
    | .passed i =>
      some { s.move p (.printed i) with content := Function.update s.content i v }
    | _ => none
  | .quit p =>
    match s.phase p with
    | .feeding i => some (s.move p (.removing i))
    | _ => none

/-- No feeder has started yet; a pidfile may have been left behind, with anything in it. -/
def Initial (s : State) : Prop :=
  (∀ p, s.phase p = .absent ∨ s.phase p = .unrelated) ∧ s.locks = Locks.none ∧
    ∀ i, s.path = some i → i < s.nextInode

/-! ## What the invariant reads off a phase -/

/-- Past `gen_pidfile`, and still a process. -/
def Phase.past : Phase → Bool
  | .feeding _ | .removing _ | .unlocking _ | .closing _ => true
  | _ => false

/-- The file whose lock the process is going for or has been granted. -/
def Phase.interest : Phase → Option Nat
  | .locking _ i | .reading _ i true | .checking _ i true _ => some i
  | .passed i | .printed i | .feeding i | .removing i => some i
  | _ => none

/-- Between the read under the lock and the end of `gen_pidfile`. -/
def Phase.deciding : Phase → Bool
  | .checking _ _ true _ | .passed _ | .printed _ => true
  | _ => false

/-- Sure that there is no other feeder. -/
def Phase.cleared : Phase → Bool
  | .passed _ | .printed _ => true
  | _ => false

/-- The pid read under the lock. -/
def Phase.suspect : Phase → Option Nat
  | .checking _ _ true pid => some pid
  | _ => none

/-- The file with the process's own pid in it. -/
def Phase.owned : Phase → Option Nat
  | .feeding i | .removing i => some i
  | _ => none

/-- Past the removal of the pidfile. -/
def Phase.leaving : Phase → Bool
  | .unlocking _ | .closing _ => true
  | _ => false

/-- **The condition.**  A process reads the pidfile under its lock only when no other process is
    between such a read and the end of `gen_pidfile`, or between the removal of the file and its
    exit; and nobody removes the file while another process goes for the lock on it or has been
    granted it. -/
def Careful (s : State) : Label → Prop
  | .run p =>
    match s.phase p with
    | .reading _ _ true =>
      ∀ q, q ≠ p → (s.phase q).deciding = false ∧ (s.phase q).leaving = false
    | .unlinking _ | .removing _ =>
      ∀ q, q ≠ p → ∀ i, (s.phase q).interest = some i → s.path ≠ some i
    | _ => True
  | _ => True

/-! ## The invariant -/

structure Inv (s : State) : Prop where
  /-- Whoever goes for a lock has the file that is at the path. -/
  at_path : ∀ p i, (s.phase p).interest = some i → s.path = some i
  written : ∀ p i, (s.phase p).owned = some i → s.content i = some p
  one_decides : ∀ p q, (s.phase p).deciding = true → (s.phase q).deciding = true → p = q
  none_leaving : ∀ p q, (s.phase p).deciding = true → (s.phase q).leaving = false
  none_owns : ∀ p q, (s.phase p).cleared = true → (s.phase q).owned = none
  /-- Who reads under the lock while there is a feeder has read the feeder's pid. -/
  suspects : ∀ p q pid i, (s.phase p).suspect = some pid → (s.phase q).owned = some i → pid = q
  one_past : ∀ p q, (s.phase p).past = true → (s.phase q).past = true → p = q

theorem past_iff (φ : Phase) :
    φ.past = true ↔ (∃ i, φ.owned = some i) ∨ φ.leaving = true := by
  cases φ <;> simp [Phase.past, Phase.owned, Phase.leaving]

theorem interest_of_owned {φ : Phase} {i : Nat} (h : φ.owned = some i) : φ.interest = some i := by
  cases φ <;> simp_all [Phase.owned, Phase.interest]

theorem interest_of_deciding {φ : Phase} (h : φ.deciding = true) : ∃ i, φ.interest = some i := by
  cases φ with
  | checking last i locked pid => cases locked <;> simp_all [Phase.deciding, Phase.interest]
  | _ => simp_all [Phase.deciding, Phase.interest]

theorem deciding_of_cleared {φ : Phase} (h : φ.cleared = true) : φ.deciding = true := by
  cases φ <;> simp_all [Phase.cleared, Phase.deciding]

theorem deciding_of_suspect {φ : Phase} {pid : Nat} (h : φ.suspect = some pid) :
    φ.deciding = true := by
  cases φ with
  | checking last i locked q => cases locked <;> simp_all [Phase.suspect, Phase.deciding]
  | _ => simp_all [Phase.suspect]

/-- `φ` says no more about its process than `φ'` does. -/
structure Weaker (φ φ' : Phase) : Prop where
  owned : ∀ i, φ.owned = some i → φ'.owned = some i
  deciding : φ.deciding = true → φ'.deciding = true
  cleared : φ.cleared = true → φ'.cleared = true
  suspect : ∀ pid, φ.suspect = some pid → φ'.suspect = some pid
  leaving : φ.leaving = true → φ'.leaving = true

theorem Weaker.refl (φ : Phase) : Weaker φ φ :=
  ⟨fun _ => id, id, id, fun _ => id, id⟩

theorem Weaker.past {φ φ' : Phase} (h : Weaker φ φ') (hp : φ.past = true) : φ'.past = true := by
  rw [past_iff] at hp ⊢
  exact hp.imp (fun ⟨i, hi⟩ => ⟨i, h.owned i hi⟩) h.leaving

/-- Steps after which no process is further than it was. -/
theorem Inv.weaken {s t : State} (hi : Inv s) (hw : ∀ q, Weaker (t.phase q) (s.phase q))
    (hpath : ∀ q i, (t.phase q).interest = some i → t.path = some i)
    (hcontent : ∀ q i, (t.phase q).owned = some i → t.content i = s.content i) : Inv t where
  at_path := hpath
  written p i h := by rw [hcontent p i h, hi.written p i ((hw p).owned i h)]
  one_decides p q hp hq := hi.one_decides p q ((hw p).deciding hp) ((hw q).deciding hq)
  none_leaving p q hp := by
    have hq := hi.none_leaving p q ((hw p).deciding hp)
    exact Bool.eq_false_iff.mpr fun h => by simp [(hw q).leaving h] at hq
  none_owns p q hp := by
    have hq := hi.none_owns p q ((hw p).cleared hp)
    exact Option.eq_none_iff_forall_ne_some.mpr fun i h => by simp [(hw q).owned i h] at hq
  suspects p q pid i hp hq := hi.suspects p q pid i ((hw p).suspect pid hp) ((hw q).owned i hq)
  one_past p q hp hq := hi.one_past p q ((hw p).past hp) ((hw q).past hq)

theorem phase_move (s : State) (p q : Nat) (φ : Phase) :
    (s.move p φ).phase q = if q = p then φ else s.phase q := by
  simp [State.move, Function.update_apply]

theorem weaker_move {s : State} {p : Nat} {φ : Phase} (hφ : Weaker φ (s.phase p)) (q : Nat) :
    Weaker ((s.move p φ).phase q) (s.phase q) := by
  rw [phase_move]
  split
  · rename_i heq
    exact heq ▸ hφ
  · exact Weaker.refl _

theorem interest_move {s : State} (hi : Inv s) {p : Nat} {φ : Phase}
    (hφ : ∀ i, φ.interest = some i → s.path = some i) (q i : Nat)
    (h : ((s.move p φ).phase q).interest = some i) : s.path = some i := by
  rw [phase_move] at h
  split at h
  · exact hφ i h
  · exact hi.at_path q i h

/-- Steps that only take `p` to a phase that is not further, whatever becomes of the locks. -/
theorem Inv.move {s : State} (hi : Inv s) {p : Nat} {φ : Phase} (l : Locks Nat Nat)
    (hw : Weaker φ (s.phase p)) (hint : ∀ i, φ.interest = some i → s.path = some i) :
    Inv { s.move p φ with locks := l } :=
  hi.weaken (weaker_move hw) (interest_move hi hint) fun _ _ _ => rfl

/-- A process that is nowhere says nothing. -/
theorem weaker_of_nowhere {φ φ' : Phase} (hown : φ.owned = none) (hdec : φ.deciding = false)
    (hleave : φ.leaving = false) : Weaker φ φ' where
  owned i h := by simp [hown] at h
  deciding h := by simp [hdec] at h
  cleared h := by simp [deciding_of_cleared h] at hdec
  suspect pid h := by simp [deciding_of_suspect h] at hdec
  leaving h := by simp [hleave] at h

theorem weaker_of_no_interest {φ φ' : Phase} (hint : φ.interest = none)
    (hleave : φ.leaving = false) : Weaker φ φ' := by
  refine weaker_of_nowhere (Option.eq_none_iff_forall_ne_some.mpr fun i h => ?_)
    (Bool.eq_false_iff.mpr fun h => ?_) hleave
  · simp [interest_of_owned h] at hint
  · obtain ⟨i, hi⟩ := interest_of_deciding h
    simp [hi] at hint

theorem Inv.gone {s : State} (hi : Inv s) (p : Nat) : Inv (s.gone p) :=
  hi.move _ (weaker_of_nowhere rfl rfl rfl) fun _ h => nomatch h

/-- **`p` decides.**  It is the only one, nobody leaves, and what it has found out is right. -/
theorem Inv.decide {s : State} (hi : Inv s) {p : Nat} {φ : Phase} (l : Locks Nat Nat)
    (hint : ∀ i, φ.interest = some i → s.path = some i)
    (hown : φ.owned = none) (hleave : φ.leaving = false)
    (halone : ∀ q, q ≠ p → (s.phase q).deciding = false ∧ (s.phase q).leaving = false)
    (hclear : φ.cleared = true → ∀ q, (s.phase q).owned = none)
    (hsus : ∀ pid, φ.suspect = some pid → ∀ q i, (s.phase q).owned = some i → pid = q) :
    Inv { s.move p φ with locks := l } := by
  -- the others are where they were
  have hother : ∀ q, q ≠ p → (s.move p φ).phase q = s.phase q := fun q hq => by
    rw [phase_move, if_neg hq]
  have hself : (s.move p φ).phase p = φ := by rw [phase_move, if_pos rfl]
  have howned : ∀ q i, ((s.move p φ).phase q).owned = some i → (s.phase q).owned = some i := by
    intro q i h
    by_cases hq : q = p
    · subst hq
      simp [hself, hown] at h
    · rwa [hother q hq] at h
  have honly : ∀ q, ((s.move p φ).phase q).deciding = true → q = p := by
    intro q h
    by_contra hq
    rw [hother q hq, (halone q hq).1] at h
    cases h
  have hnone : ∀ q, ((s.move p φ).phase q).leaving = false := by
    intro q
    by_cases hq : q = p
    · rw [hq, hself, hleave]
    · rw [hother q hq, (halone q hq).2]
  constructor
  · exact interest_move hi hint
  · exact fun q i h => hi.written q i (howned q i h)
  · exact fun q r hq hr => (honly q hq).trans (honly r hr).symm
  · exact fun q r _ => hnone r
  · intro q r hq
    have := honly q (deciding_of_cleared hq)
    subst this
    refine Option.eq_none_iff_forall_ne_some.mpr fun i h => ?_
    have hr := hclear (by simpa [hself] using hq) r
    simp [howned r i h] at hr
  · intro q r pid i hq hr
    have := honly q (deciding_of_suspect hq)
    subst this
    exact hsus pid (by simpa [hself] using hq) r i (howned r i hr)
  · intro q r hq hr
    have hpast : ∀ q, ((s.move p φ).phase q).past = true → (s.phase q).past = true := by
      intro q h
      rw [past_iff] at h ⊢
      rcases h with ⟨i, h⟩ | h
      · exact Or.inl ⟨i, howned q i h⟩
      · rw [hnone q] at h
        cases h
    exact hi.one_past q r (hpast q hq) (hpast r hr)

/-- While nobody decides only the files and the feeders matter. -/
theorem Inv.of_quiet {s : State} (hdec : ∀ q, (s.phase q).deciding = false)
    (hpath : ∀ p i, (s.phase p).interest = some i → s.path = some i)
    (hwritten : ∀ p i, (s.phase p).owned = some i → s.content i = some p)
    (hpast : ∀ p q, (s.phase p).past = true → (s.phase q).past = true → p = q) : Inv s where
  at_path := hpath
  written := hwritten
  one_decides p _ hp := by simp [hdec p] at hp
  none_leaving p _ hp := by simp [hdec p] at hp
  none_owns p _ hp := by simpa [hdec p] using deciding_of_cleared hp
  suspects p _ _ _ hp := by simpa [hdec p] using deciding_of_suspect hp
  one_past := hpast

/-! ## The steps that matter -/

/-- A process that keeps to the file at the path. -/
theorem stays_at {s : State} {φ : Phase} {i : Nat} (hpath : s.path = some i)
    (hφ : φ.interest = some i) (j : Nat) (hj : φ.interest = some j) : s.path = some j := by
  rw [hpath, ← hφ, hj]

theorem Inv.path_of {s : State} (hi : Inv s) {p i : Nat} {φ : Phase} (hp : s.phase p = φ)
    (hφ : φ.interest = some i) : s.path = some i :=
  hi.at_path p i (by rw [hp, hφ])

/-- Nobody has a file open that counts while there is none at the path. -/
theorem Inv.no_interest {s : State} (hi : Inv s) (hp : s.path = none) (q : Nat) :
    (s.phase q).interest = none := by
  refine Option.eq_none_iff_forall_ne_some.mpr fun i h => ?_
  have := hi.at_path q i h
  simp [hp] at this

/-- `open` with `CREAT | EXCL`, when there is no pidfile. -/
theorem Inv.create {s : State} (hi : Inv s) {p : Nat} {last : Bool}
    (hpath : s.path = none) (n : Nat) (content : Nat → Option Nat) (next : Nat) :
    Inv { s.move p (.locking last n) with path := some n, content := content, nextInode := next }
    := by
  have hnone := hi.no_interest hpath
  refine hi.weaken (weaker_move (weaker_of_nowhere rfl rfl rfl)) ?_ ?_
  · intro q i h
    rw [show _ = Phase.interest ((s.move p (.locking last n)).phase q) from rfl, phase_move] at h
    split at h
    · exact h
    · simp [hnone q] at h
  · intro q i h
    have hint := interest_of_owned h
    rw [show _ = Phase.interest ((s.move p (.locking last n)).phase q) from rfl, phase_move] at hint
    split at hint
    · rename_i heq
      have h : ((s.move p (.locking last n)).phase q).owned = some i := h
      rw [phase_move, if_pos heq] at h
      cases h
    · simp [hnone q] at hint

/-- `rm_f` of the pidfile, when nobody else goes for its lock. -/
theorem interest_unlink {s : State} (hi : Inv s) {p : Nat} {φ : Phase} (hφ : φ.interest = none)
    (hcare : ∀ q, q ≠ p → ∀ i, (s.phase q).interest = some i → s.path ≠ some i) (q : Nat) :
    ((s.move p φ).phase q).interest = none := by
  rw [phase_move]
  split
  · exact hφ
  · rename_i hq
    refine Option.eq_none_iff_forall_ne_some.mpr fun i h => ?_
    exact hcare q hq i h (hi.at_path q i h)

/-- The recovery in `gen_pidfile`: the file of a dead owner is removed. -/
theorem Inv.unlink {s : State} (hi : Inv s) {p : Nat} {φ : Phase} (hint : φ.interest = none)
    (hleave : φ.leaving = false)
    (hcare : ∀ q, q ≠ p → ∀ i, (s.phase q).interest = some i → s.path ≠ some i) :
    Inv { s.move p φ with path := none } := by
  refine hi.weaken (weaker_move (weaker_of_no_interest hint hleave)) ?_ fun _ _ _ => rfl
  intro q i h
  have hnone := interest_unlink hi hint hcare q
  simp [show ((s.move p φ).phase q).interest = some i from h] at hnone

/-- The `at_exit` handler removes the file. -/
theorem Inv.remove {s : State} (hi : Inv s) {p i : Nat} (hp : s.phase p = .removing i)
    (hcare : ∀ q, q ≠ p → ∀ j, (s.phase q).interest = some j → s.path ≠ some j) :
    Inv { s.move p (.unlocking i) with path := none } := by
  have hnone := interest_unlink hi (φ := .unlocking i) rfl hcare
  have hown : ∀ q, ((s.move p (.unlocking i)).phase q).owned = none := fun q =>
    Option.eq_none_iff_forall_ne_some.mpr fun j h => by simpa [hnone q] using interest_of_owned h
  have hdec : ∀ q, ((s.move p (.unlocking i)).phase q).deciding = false := fun q =>
    Bool.eq_false_iff.mpr fun h => by
      obtain ⟨j, hj⟩ := interest_of_deciding h
      simp [hnone q] at hj
  -- whoever is past the end now was past it before
  have hpast : ∀ q, ((s.move p (.unlocking i)).phase q).past = true → (s.phase q).past = true := by
    intro q h
    rw [phase_move] at h
    split at h
    · rename_i heq
      rw [heq, hp]
      rfl
    · exact h
  refine Inv.of_quiet hdec ?_ ?_ fun q r hq hr => hi.one_past q r (hpast q hq) (hpast r hr)
  · intro q j h
    rw [show _ = none from hnone q] at h
    cases h
  · intro q j h
    rw [show _ = none from hown q] at h
    cases h

/-- The read under the lock: `p` is the only one to decide, and if there is a feeder it is the
    feeder's pid that `p` has read. -/
theorem Inv.read {s : State} (hi : Inv s) {p i : Nat} {last : Bool}
    (hp : s.phase p = .reading last i true)
    (hcare : ∀ q, q ≠ p → (s.phase q).deciding = false ∧ (s.phase q).leaving = false) :
    Inv { s.move p (afterRead last i true (ioRead s p).1) with locks := (ioRead s p).2 } := by
  have hpath : s.path = some i := hi.path_of hp rfl
  have hpid : (ioRead s p).1 = s.content i := by simp [ioRead, hpath]
  -- a feeder has the same file, with its pid in it
  have hfeeder : ∀ q j, (s.phase q).owned = some j → s.content i = some q := by
    intro q j h
    have hj := hi.at_path q j (interest_of_owned h)
    obtain rfl : i = j := by simpa [hpath] using hj
    exact hi.written q i h
  rw [hpid]
  cases hc : s.content i with
  | none =>
    refine hi.decide _ (stays_at hpath rfl) rfl rfl hcare ?_ (fun _ h => nomatch h)
    intro _ q
    refine Option.eq_none_iff_forall_ne_some.mpr fun j h => ?_
    simpa [hc] using hfeeder q j h
  | some pid =>
    refine hi.decide _ (stays_at hpath rfl) rfl rfl hcare (fun h => nomatch h) ?_
    intro pid' hpid' q j h
    obtain rfl : pid = pid' := Option.some.inj hpid'
    simpa [hc] using hfeeder q j h

/-- The others of a process that decides do not, and do not leave. -/
theorem Inv.alone {s : State} (hi : Inv s) {p : Nat} (hp : (s.phase p).deciding = true) (q : Nat)
    (hq : q ≠ p) : (s.phase q).deciding = false ∧ (s.phase q).leaving = false :=
  ⟨Bool.eq_false_iff.mpr fun h => hq (hi.one_decides q p h hp), hi.none_leaving p q hp⟩

/-- The liveness check under the lock: a feeder is alive, so there is none when `p` goes on. -/
theorem Inv.check {s : State} (hi : Inv s) {p i pid : Nat} {last : Bool}
    (hp : s.phase p = .checking last i true pid) :
    Inv (s.move p (afterCheck s p last i true pid)) := by
  have hpath : s.path = some i := hi.path_of hp rfl
  have hpass : (∀ q, (s.phase q).owned = none) → Inv (s.move p (.passed i)) := by
    intro hnone
    exact hi.decide s.locks (stays_at hpath rfl) rfl rfl (hi.alone (by rw [hp]; rfl))
      (fun _ => hnone) (fun _ h => by cases h)
  -- a feeder would be the process asked about
  have hsus : ∀ q j, (s.phase q).owned = some j → pid = q := fun q j =>
    hi.suspects p q pid j (by rw [hp]; rfl)
  unfold afterCheck
  split
  · split
    · rename_i hself
      apply hpass
      intro q
      refine Option.eq_none_iff_forall_ne_some.mpr fun j h => ?_
      obtain rfl : p = q := by
        have := hsus q j h
        simp only [Bool.true_and, beq_iff_eq] at hself
        omega
      rw [hp] at h
      cases h
    · exact hi.move s.locks (weaker_of_nowhere rfl rfl rfl) fun _ h => by cases h
  · rename_i hdead
    show Inv (s.move p (.passed i))
    apply hpass
    intro q
    refine Option.eq_none_iff_forall_ne_some.mpr fun j h => ?_
    obtain rfl := hsus q j h
    apply hdead
    have hne : s.phase pid ≠ .absent := by
      intro h0
      rw [h0] at h
      cases h
    simp [alive, hne]

/-- The pid is printed over what stood in the file. -/
theorem Inv.print {s : State} (hi : Inv s) {p i : Nat} (hp : s.phase p = .passed i)
    (content : Nat → Option Nat) : Inv { s.move p (.printed i) with content := content } := by
  have hpath : s.path = some i := hi.path_of hp rfl
  have hw : Weaker (.printed i) (s.phase p) := by
    rw [hp]
    exact ⟨fun _ h => (nomatch h), fun _ => rfl, fun _ => rfl, fun _ h => (nomatch h),
      fun h => (nomatch h)⟩
  refine hi.weaken (weaker_move hw) (interest_move hi (stays_at hpath rfl)) ?_
  intro q j h
  have hq := (weaker_move hw q).owned j h
  rw [hi.none_owns p q (by rw [hp]; rfl)] at hq
  cases hq

/-- The end of `gen_pidfile`: the file holds the pid, and the process is the only one past it. -/
theorem Inv.truncate {s : State} (hi : Inv s) {p i : Nat} (hp : s.phase p = .printed i) :
    Inv { s.move p (.feeding i) with content := Function.update s.content i (some p) } := by
  have hpath : s.path = some i := hi.path_of hp rfl
  have hother : ∀ q, q ≠ p → (s.move p (.feeding i)).phase q = s.phase q := fun q hq => by
    rw [phase_move, if_neg hq]
  have hself : (s.move p (.feeding i)).phase p = .feeding i := by rw [phase_move, if_pos rfl]
  -- nobody else decides, leaves or owns a file
  have hnone : ∀ q, (s.phase q).owned = none := fun q =>
    hi.none_owns p q (by rw [hp]; rfl)
  have hdec : ∀ q, ((s.move p (.feeding i)).phase q).deciding = false := by
    intro q
    by_cases hq : q = p
    · rw [hq, hself]
      rfl
    · rw [hother q hq, (hi.alone (by rw [hp]; rfl) q hq).1]
  have hown : ∀ q j, ((s.move p (.feeding i)).phase q).owned = some j → q = p ∧ j = i := by
    intro q j h
    by_cases hq : q = p
    · rw [hq, hself] at h
      exact ⟨hq, (Option.some.inj h).symm⟩
    · simp [hother q hq, hnone q] at h
  have hpast : ∀ q, ((s.move p (.feeding i)).phase q).past = true → q = p := by
    intro q h
    by_contra hq
    rw [hother q hq, past_iff] at h
    simp [hnone q, (hi.alone (p := p) (by rw [hp]; rfl) q hq).2] at h
  refine Inv.of_quiet hdec (interest_move hi (stays_at hpath rfl)) ?_ fun q r hq hr =>
    (hpast q hq).trans (hpast r hr).symm
  intro q j h
  obtain ⟨rfl, rfl⟩ := hown q j h
  simp

/-! ## Every step, and every run -/

theorem nextRound_nowhere (last : Bool) :
    (nextRound last).interest = none ∧ (nextRound last).leaving = false := by
  cases last <;> exact ⟨rfl, rfl⟩

/-- A process that goes for nothing and does not leave. -/
theorem Inv.nowhere {s : State} (hi : Inv s) {p : Nat} {φ : Phase} (l : Locks Nat Nat)
    (hφ : φ.interest = none ∧ φ.leaving = false) : Inv { s.move p φ with locks := l } := by
  refine hi.move l (weaker_of_no_interest hφ.1 hφ.2) fun i h => ?_
  rw [hφ.1] at h
  cases h

/-- A process without the lock goes for nothing. -/
theorem afterRead_unlocked (last : Bool) (file : Nat) (pid : Option Nat) :
    (afterRead last file false pid).interest = none ∧
      (afterRead last file false pid).leaving = false := by
  cases pid <;> exact ⟨rfl, rfl⟩

theorem afterCheck_unlocked (s : State) (p : Nat) (last : Bool) (file pid : Nat) :
    (afterCheck s p last file false pid).interest = none ∧
      (afterCheck s p last file false pid).leaving = false := by
  unfold afterCheck
  split
  · exact ⟨rfl, rfl⟩
  · exact ⟨rfl, rfl⟩

/-- The operations of a process. -/
theorem Inv.runStep {s t : State} (hi : Inv s) {p : Nat} (hg : Careful s (.run p))
    (hst : runStep s p = some t) : Inv t := by
  unfold Pidfile.runStep at hst
  simp only [Careful] at hg
  cases hp : s.phase p with
  | opening last =>
    rw [hp] at hst
    cases hpath : s.path with
    | none =>
      rw [hpath] at hst
      obtain rfl := Option.some.inj hst
      exact hi.create hpath _ _ _
    | some i =>
      rw [hpath] at hst
      obtain rfl := Option.some.inj hst
      exact hi.nowhere s.locks ⟨rfl, rfl⟩
  | reopening last =>
    rw [hp] at hst
    cases hpath : s.path with
    | none =>
      rw [hpath] at hst
      obtain rfl := Option.some.inj hst
      exact hi.gone p
    | some i =>
      rw [hpath] at hst
      obtain rfl := Option.some.inj hst
      exact hi.move s.locks (weaker_of_nowhere rfl rfl rfl) (stays_at hpath rfl)
  | locking last i =>
    simp only [hp] at hst
    have hpath := hi.path_of hp rfl
    cases hl : s.locks.setlk i p .exclusive with
    | some l =>
      simp only [hl] at hst
      obtain rfl := Option.some.inj hst
      exact hi.move l (weaker_of_nowhere rfl rfl rfl) (stays_at hpath rfl)
    | none =>
      simp only [hl] at hst
      obtain rfl := Option.some.inj hst
      exact hi.nowhere s.locks ⟨rfl, rfl⟩
  | reading last i locked =>
    rw [hp] at hst hg
    obtain rfl := Option.some.inj hst
    cases locked with
    | true => exact hi.read hp hg
    | false => exact hi.nowhere _ (afterRead_unlocked last i _)
  | checking last i locked pid =>
    rw [hp] at hst
    obtain rfl := Option.some.inj hst
    cases locked with
    | true => exact hi.check hp
    | false => exact hi.nowhere s.locks (afterCheck_unlocked s p last i pid)
  | unlinking last =>
    rw [hp] at hst hg
    obtain rfl := Option.some.inj hst
    exact hi.unlink (nextRound_nowhere last).1 (nextRound_nowhere last).2 hg
  | printed i =>
    rw [hp] at hst
    obtain rfl := Option.some.inj hst
    exact hi.truncate hp
  | rejecting =>
    rw [hp] at hst
    obtain rfl := Option.some.inj hst
    exact hi.gone p
  | removing i =>
    rw [hp] at hst hg
    obtain rfl := Option.some.inj hst
    exact hi.remove hp hg
  | unlocking i =>
    rw [hp] at hst
    obtain rfl := Option.some.inj hst
    have hw : Weaker (.closing i) (s.phase p) := by
      rw [hp]
      exact ⟨fun _ => id, id, id, fun _ => id, fun _ => rfl⟩
    exact hi.move _ hw fun _ h => nomatch h
  | closing i =>
    rw [hp] at hst
    obtain rfl := Option.some.inj hst
    exact hi.gone p
  | absent | unrelated | passed i | feeding i =>
    rw [hp] at hst
    cases hst

theorem Inv.step {s t : State} {a : Label} (hi : Inv s) (hg : Careful s a)
    (hst : step s a = some t) : Inv t := by
  cases a with
  | run p => exact hi.runStep hg hst
  | spawn p =>
    simp only [Pidfile.step, Option.ite_none_right_eq_some] at hst
    obtain rfl := Option.some.inj hst.2
    exact hi.nowhere s.locks ⟨rfl, rfl⟩
  | exit p =>
    simp only [Pidfile.step, Option.ite_none_right_eq_some] at hst
    obtain rfl := Option.some.inj hst.2
    exact hi.gone p
  | start p =>
    simp only [Pidfile.step, Option.ite_none_right_eq_some] at hst
    obtain rfl := Option.some.inj hst.2
    exact hi.nowhere s.locks ⟨rfl, rfl⟩
  | denied p =>
    simp only [Pidfile.step] at hst
    split at hst
    · rename_i last _ _ _ hp
      obtain rfl := Option.some.inj hst
      exact hi.nowhere s.locks (nextRound_nowhere last)
    · cases hst
  | print p v =>
    simp only [Pidfile.step] at hst
    split at hst
    · rename_i i hp
      obtain rfl := Option.some.inj hst
      exact hi.print hp _
    · cases hst
  | quit p =>
    simp only [Pidfile.step] at hst
    split at hst
    · rename_i i hp
      obtain rfl := Option.some.inj hst
      have hw : Weaker (.removing i) (s.phase p) := by
        rw [hp]
        exact ⟨fun _ => id, id, id, fun _ => id, id⟩
      exact hi.move s.locks hw (stays_at (hi.path_of hp rfl) rfl)
    · cases hst

theorem Inv.initial {s : State} (h : Initial s) : Inv s := by
  have hnone : ∀ q, (s.phase q).interest = none ∧ (s.phase q).past = false := by
    intro q
    rcases h.1 q with hq | hq
    · rw [hq]
      exact ⟨rfl, rfl⟩
    · rw [hq]
      exact ⟨rfl, rfl⟩
  apply Inv.of_quiet
  · intro q
    refine Bool.eq_false_iff.mpr fun hd => ?_
    obtain ⟨i, hi⟩ := interest_of_deciding hd
    simp [(hnone q).1] at hi
  · intro q i hi
    simp [(hnone q).1] at hi
  · intro q i hi
    simpa [(hnone q).1] using interest_of_owned hi
  · intro q r hq
    simp [(hnone q).2] at hq

/-- **One feeder.**  Any number of processes, in any interleaving of their file operations, with a
    pidfile left behind or not, and with pids used again: as long as every step is `Careful`, no two
    processes are past `gen_pidfile` at the same time. -/
theorem one_feeder (s : State) (h : Reach Initial step Careful s) (p q : Nat)
    (hp : (s.phase p).past = true) (hq : (s.phase q).past = true) : p = q := by
  have hi : Inv s := Reach.invariant (fun _ => Inv.initial) (fun _ _ _ hi hg => hi.step hg) h
  exact hi.one_past p q hp hq

/-! ## Two feeders, and one -/

/-- A host with the processes 1, 2 and 3 and no pidfile. -/
def host : State where
  phase := fun p => if p = 1 ∨ p = 2 ∨ p = 3 then .unrelated else .absent
  path := none
  content := fun _ => none
  locks := Locks.none
  nextInode := 0

theorem initial_host : Initial host := by
  refine ⟨fun p => ?_, rfl, fun i h => nomatch h⟩
  by_cases hp : p = 1 ∨ p = 2 ∨ p = 3
  · exact Or.inr (if_pos hp)
  · exact Or.inl (if_neg hp)

/-- Process 1 makes the file, locks it and reads it, which drops its lock; so 2 gets the lock as
    well, finds the file as empty as 1 did, and both write their pids. -/
def bothRead : List Label :=
  [.start 1, .run 1, .run 1, .run 1,
   .start 2, .run 2, .run 2, .run 2, .run 2,
   .print 1 (some 1), .run 1, .print 2 (some 2), .run 2]

theorem two_feeders_after_read :
    ∃ s, Reach Initial step (fun _ _ => True) s ∧
      s.phase 1 = .feeding 0 ∧ s.phase 2 = .feeding 0 := by
  obtain ⟨s, hs, hobs⟩ : ∃ s, exec step bothRead host = some s ∧
      decide (s.phase 1 = .feeding 0 ∧ s.phase 2 = .feeding 0) = true :=
    exists_of_any (by decide)
  exact ⟨s, Reach.exec (Reach.init initial_host) (along_true _ _) hs, of_decide_eq_true hobs⟩

/-- With a feeder on the host, the next process finds its pid and gives up. -/
theorem second_is_rejected :
    ∃ s, Reach Initial step Careful s ∧ s.phase 1 = .feeding 0 ∧ s.phase 2 = .rejecting ∧
      ∀ q, (s.phase q).past = true → q = 1 := by
  have alone : ∀ q, q ≠ 1 → (host.phase q).deciding = false ∧ (host.phase q).leaving = false := by
    intro q _
    rcases initial_host.1 q with hq | hq
    · rw [hq]
      exact ⟨rfl, rfl⟩
    · rw [hq]
      exact ⟨rfl, rfl⟩
  -- process 1 comes through
  have h : Reach Initial step Careful host := Reach.init initial_host
  have h := h.step (show Careful _ (.start 1) from trivial) rfl
  have h := h.step (show Careful _ (.run 1) from trivial) rfl
  have h := h.step (show Careful _ (.run 1) from trivial) rfl
  have h := h.step (show Careful _ (.run 1) from
    fun q hq => by simpa [State.move, hq] using alone q hq) rfl
  have h := h.step (show Careful _ (.print 1 (some 1)) from trivial) rfl
  have h := h.step (show Careful _ (.run 1) from trivial) rfl
  -- and process 2 finds it there
  have h := h.step (show Careful _ (.start 2) from trivial) rfl
  have h := h.step (show Careful _ (.run 2) from trivial) rfl
  have h := h.step (show Careful _ (.run 2) from trivial) rfl
  have h := h.step (show Careful _ (.run 2) from trivial) rfl
  have h := h.step (show Careful _ (.run 2) from fun q hq => by
    by_cases h1 : q = 1
    · subst h1
      exact ⟨rfl, rfl⟩
    · simpa [State.move, hq, h1] using alone q h1) rfl
  have h := h.step (show Careful _ (.run 2) from trivial) rfl
  exact ⟨_, h, rfl, rfl, fun q hq => one_feeder _ h q 1 hq rfl⟩

end RubyQueue.Pidfile
