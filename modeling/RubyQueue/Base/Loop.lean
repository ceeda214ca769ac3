/-
  While loops.

  `run cond body fuel s` does at most `fuel` rounds of `while cond do body`; `none` says the loop is
  still going.  The rules:

  * `run_invariant` — what a round keeps holds where the loop stops, and the condition fails there;
  * `run_ends`      — a measure that each round lowers makes the loop stop;
  * `run_never`     — a loop whose invariant implies its condition never stops;
  * `run_unique`    — where the loop stops does not depend on how long one waits.
-/
import Mathlib.Order.Basic

namespace RubyQueue.Loop

universe u

variable {σ : Type u} {cond : σ → Bool} {body : σ → σ}

/-- At most `fuel` rounds of `while cond do body`. -/
def run (cond : σ → Bool) (body : σ → σ) : Nat → σ → Option σ
  | 0, _ => none
  | fuel + 1, s => if cond s then run cond body fuel (body s) else some s

/-- **The invariant rule.** -/
theorem run_invariant {I : σ → Prop} (hstep : ∀ s, I s → cond s = true → I (body s)) :
    ∀ {fuel : Nat} {s t : σ}, I s → run cond body fuel s = some t → I t ∧ cond t = false
  | fuel + 1, s, t, hs, h => by
    unfold run at h
    split at h
    · next hc => exact run_invariant hstep (hstep s hs hc) h
    · next hc =>
      obtain rfl : s = t := Option.some.inj h
      exact ⟨hs, by simpa using hc⟩

/-- **The variant rule.**  A measure that each round lowers. -/
theorem run_ends {I : σ → Prop} (m : σ → Nat) (hstep : ∀ s, I s → cond s = true → I (body s))
    (hm : ∀ s, I s → cond s = true → m (body s) < m s) {s : σ} (hs : I s) :
    ∃ fuel t, run cond body fuel s = some t := by
  -- on the measure, with the state left free
  induction hn : m s using Nat.strongRecOn generalizing s with
  | ind n ih =>
    cases hc : cond s with
    | false => exact ⟨1, s, by simp [run, hc]⟩
    | true =>
      obtain ⟨fuel, t, h⟩ := ih (m (body s)) (hn ▸ hm s hs hc) (hstep s hs hc) rfl
      exact ⟨fuel + 1, t, by simp [run, hc, h]⟩

/-- An invariant that implies the condition keeps the loop going. -/
theorem run_never {I : σ → Prop} (hstep : ∀ s, I s → I (body s)) (hcond : ∀ s, I s → cond s = true) :
    ∀ {s : σ}, I s → ∀ fuel, run cond body fuel s = none
  | _, _, 0 => rfl
  | s, hs, fuel + 1 => by
    simp only [run, hcond s hs, if_true]
    exact run_never hstep hcond (hstep s hs) fuel

/-- Two waits that see the loop stop see it stop in the same state. -/
theorem run_unique : ∀ {f g : Nat} {s t u : σ}, run cond body f s = some t →
    run cond body g s = some u → t = u
  | f + 1, g + 1, s, t, u, ht, hu => by
    unfold run at ht hu
    split at ht
    · next hc =>
      rw [if_pos hc] at hu
      exact run_unique ht hu
    · next hc =>
      rw [if_neg hc] at hu
      exact Option.some.inj (ht.symm.trans hu)

end RubyQueue.Loop
