/-
  POSIX record locks on whole files (`fcntl` with `F_SETLK`), for any processes and files.

  A lock belongs to a PROCESS and a FILE, not to a descriptor.  Two processes can hold locks on one
  file only if both are shared; and a process loses its lock on a file as soon as it closes ANY
  descriptor it has on it.  `Locks` carries the compatibility as an invariant, so two conflicting
  locks cannot be written down; `drop` is both the unlock and what a close does.
-/
import Mathlib.Data.List.Pairwise
import Mathlib.Logic.Function.Basic

namespace RubyQueue.RecordLock

/-- `F_RDLCK` or `F_WRLCK`. -/
inductive Kind
  | shared
  | exclusive
deriving DecidableEq, Repr

/-- Two entries of one file can stand side by side. -/
def Compatible {P : Type} (a b : P × Kind) : Prop :=
  a.1 ≠ b.1 ∧ a.2 = .shared ∧ b.2 = .shared

/-- The locks held: for each file, by which processes and of which kind. -/
structure Locks (P I : Type) where
  on : I → List (P × Kind)
  compatible : ∀ i, (on i).Pairwise Compatible

variable {P I : Type} [DecidableEq P] [DecidableEq I]

/-- No locks. -/
def Locks.none : Locks P I where
  on := fun _ => []
  compatible := fun _ => List.Pairwise.nil

/-- `p` holds a lock on `i`. -/
def Locks.Holds (l : Locks P I) (i : I) (p : P) : Prop := ∃ k, (p, k) ∈ l.on i

/-- The locks of the processes other than `p`. -/
def others (p : P) (entries : List (P × Kind)) : List (P × Kind) :=
  entries.filter fun a => a.1 != p

theorem mem_others {p : P} {entries : List (P × Kind)} {a : P × Kind} :
    a ∈ others p entries ↔ a ∈ entries ∧ a.1 ≠ p := by
  simp [others]

/-- Would `F_SETLK` grant `p` a lock of this kind? -/
def Locks.grants (l : Locks P I) (i : I) (p : P) (k : Kind) : Bool :=
  (others p (l.on i)).all fun a => k == .shared && a.2 == .shared

/-- `F_UNLCK`, or a close of any descriptor on the file. -/
def Locks.drop (l : Locks P I) (i : I) (p : P) : Locks P I where
  on := Function.update l.on i (others p (l.on i))
  compatible := by
    intro j
    by_cases hj : j = i
    · subst hj
      rw [Function.update_self]
      exact (l.compatible j).sublist List.filter_sublist
    · rw [Function.update_of_ne hj]
      exact l.compatible j

/-- The process ends: every descriptor it has is closed. -/
def Locks.dropAll (l : Locks P I) (p : P) : Locks P I where
  on := fun i => others p (l.on i)
  compatible := fun i => (l.compatible i).sublist List.filter_sublist

/-- `F_SETLK`: the lock replaces the one the process had; `none` when it is refused. -/
def Locks.setlk (l : Locks P I) (i : I) (p : P) (k : Kind) : Option (Locks P I) :=
  if h : l.grants i p k = true then
    some {
      on := Function.update l.on i ((p, k) :: others p (l.on i))
      compatible := by
        intro j
        by_cases hj : j = i
        · subst hj
          rw [Function.update_self, List.pairwise_cons]
          refine ⟨fun a ha => ?_, (l.compatible j).sublist List.filter_sublist⟩
          have hg := List.all_eq_true.mp h a ha
          simp only [Bool.and_eq_true, beq_iff_eq] at hg
          exact ⟨fun heq => (mem_others.mp ha).2 heq.symm, hg.1, hg.2⟩
        · rw [Function.update_of_ne hj]
          exact l.compatible j }
  else Option.none

/-! ## What the operations do -/

theorem on_drop (l : Locks P I) (i j : I) (p : P) :
    (l.drop i p).on j = if j = i then others p (l.on i) else l.on j := by
  by_cases hj : j = i
  · subst hj
    simp [Locks.drop]
  · simp [Locks.drop, hj]

theorem setlk_some {l l' : Locks P I} {i : I} {p : P} {k : Kind} (h : l.setlk i p k = some l') :
    l.grants i p k = true ∧
      ∀ j, l'.on j = if j = i then (p, k) :: others p (l.on i) else l.on j := by
  unfold Locks.setlk at h
  split at h
  · rename_i hg
    injection h with h
    subst h
    refine ⟨hg, fun j => ?_⟩
    by_cases hj : j = i
    · subst hj
      simp
    · simp [hj]
  · cases h

instance : Std.Symm (Compatible (P := P)) := ⟨fun _ _ h => ⟨h.1.symm, h.2.2, h.2.1⟩⟩

omit [DecidableEq P] [DecidableEq I] in
/-- An exclusive lock excludes every other lock. -/
theorem exclusive_only {l : Locks P I} {i : I} {p q : P} {k : Kind}
    (hp : (p, Kind.exclusive) ∈ l.on i) (hq : (q, k) ∈ l.on i) : q = p := by
  by_contra hne
  have hc := (l.compatible i).forall hp hq fun heq => hne (congrArg Prod.fst heq).symm
  exact absurd hc.2.1 (by simp)

omit [DecidableEq I] in
/-- A process that holds nothing on a file that nobody else has locked is granted any lock. -/
theorem grants_of_free {l : Locks P I} {i : I} {p : P} (h : ∀ a ∈ l.on i, a.1 = p) (k : Kind) :
    l.grants i p k = true := by
  rw [Locks.grants, List.all_eq_true]
  intro a ha
  exact absurd (h a (mem_others.mp ha).1) (mem_others.mp ha).2

omit [DecidableEq I] in
/-- While `p` holds an exclusive lock nobody else is granted one. -/
theorem not_grants_of_exclusive {l : Locks P I} {i : I} {p q : P} (hne : q ≠ p)
    (hp : (p, Kind.exclusive) ∈ l.on i) (k : Kind) : l.grants i q k = false := by
  rw [← Bool.not_eq_true, Locks.grants, List.all_eq_true]
  intro hall
  have := hall (p, .exclusive) (mem_others.mpr ⟨hp, hne.symm⟩)
  simp at this

end RubyQueue.RecordLock
