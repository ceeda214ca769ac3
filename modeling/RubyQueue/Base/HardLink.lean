/-
  A directory with hard links, for any type of names.

  A name stands for a file, given by its number, and several names may stand for one file.  A file
  that is created gets a number no file has had before, which `Dir` carries as an invariant: so two
  files that are ever created differ, whatever is linked and unlinked in between.
-/
import Mathlib.Logic.Function.Basic

namespace RubyQueue.HardLink

/-- Which file each name stands for, and how many files there have been. -/
structure Dir (N : Type) where
  entry : N → Option Nat
  used : Nat
  below : ∀ {n i}, entry n = some i → i < used

/-- No names, and no files yet. -/
def Dir.empty (N : Type) : Dir N := ⟨fun _ => none, 0, fun h => nomatch h⟩

/-- What `link` fails with: the old name is not there, or the new one is. -/
inductive LinkError
  | noent
  | exist
deriving DecidableEq, Repr

variable {N : Type} [DecidableEq N]

/-- A new file under the name, whatever the name stood for. -/
def Dir.add (d : Dir N) (n : N) : Dir N where
  entry := Function.update d.entry n (some d.used)
  used := d.used + 1
  below := by
    intro m i h
    rw [Function.update_apply] at h
    split at h
    · obtain rfl := Option.some.inj h
      exact Nat.lt_succ_self _
    · exact Nat.lt_succ_of_lt (d.below h)

/-- `open` with `CREAT | EXCL`: the directory with a new file, or `none` when the name is taken. -/
def Dir.create (d : Dir N) (n : N) : Option (Dir N) :=
  if d.entry n = none then some (d.add n) else none

/-- `unlink`; nothing happens when the name is not there. -/
def Dir.unlink (d : Dir N) (n : N) : Dir N where
  entry := Function.update d.entry n none
  used := d.used
  below := by
    intro m i h
    rw [Function.update_apply] at h
    split at h
    · cases h
    · exact d.below h

/-- `link`. -/
def Dir.link (d : Dir N) (old new : N) : Except LinkError (Dir N) :=
  match h : d.entry old with
  | none => .error .noent
  | some i =>
    if d.entry new = none then
      .ok {
        entry := Function.update d.entry new (some i)
        used := d.used
        below := by
          intro m j hj
          rw [Function.update_apply] at hj
          split at hj
          · obtain rfl := Option.some.inj hj
            exact d.below h
          · exact d.below hj }
    else .error .exist

variable {d d' : Dir N} {n m old new : N}

@[simp] theorem entry_add (d : Dir N) (n m : N) :
    (d.add n).entry m = if m = n then some d.used else d.entry m :=
  Function.update_apply ..

@[simp] theorem entry_unlink (d : Dir N) (n m : N) :
    (d.unlink n).entry m = if m = n then none else d.entry m :=
  Function.update_apply ..

theorem create_some (h : d.create n = some d') : d.entry n = none ∧ d' = d.add n := by
  unfold Dir.create at h
  split at h
  · rename_i hn
    exact ⟨hn, (Option.some.inj h).symm⟩
  · cases h

/-- A link that is made: the two names stand for one file, and no file is new. -/
theorem link_ok (h : d.link old new = .ok d') : ∃ i, d.entry old = some i ∧
    d.entry new = none ∧ d'.used = d.used ∧
    ∀ m, d'.entry m = if m = new then some i else d.entry m := by
  unfold Dir.link at h
  split at h
  · cases h
  · rename_i i hi
    split at h
    · rename_i hnew
      obtain rfl := Except.ok.inj h
      exact ⟨i, hi, hnew, rfl, fun m => Function.update_apply ..⟩
    · cases h

/-- A link from a name that is there to one that is not. -/
theorem link_free {i : Nat} (hold : d.entry old = some i) (hnew : d.entry new = none) :
    ∃ d', d.link old new = .ok d' := by
  unfold Dir.link
  split
  · rename_i h
    rw [hold] at h
    cases h
  · exact ⟨_, if_pos hnew⟩

theorem link_taken {i j : Nat} (hold : d.entry old = some i) (hnew : d.entry new = some j) :
    d.link old new = .error .exist := by
  unfold Dir.link
  split
  · rename_i h
    rw [hold] at h
    cases h
  · simp [hnew]

theorem create_free (h : d.entry n = none) : d.create n = some (d.add n) := if_pos h

end RubyQueue.HardLink
