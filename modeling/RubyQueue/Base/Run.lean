/-
  Runs of a partial transition function, and the rules the proofs about runs use.

  A system is a state type `σ`, a label type `α` (which operation, by whom, with which choices of
  the environment) and `step : σ → α → Option σ` (`none` when the operation is not enabled).
  `Reach init step good` is the set of states some run reaches when EVERY step it takes meets
  `good`; taking `good` to be `fun _ _ => True` gives all runs.

  * `Reach.invariant` — "true at the start and kept by each step" gives "true in every state";
  * `Reach.exec`      — a run written down as a list of labels and evaluated is a run;
  * `exec_interleaved` — a script is carried out, whatever idle steps come in between;
  * `exec_simulated` — a run is a path of a coarser system, and the same is seen of it.
-/
import Mathlib.Logic.Relation

namespace RubyQueue.Run

universe u u' v w

variable {σ : Type u} {α : Type v}

/-- The states reached from an `init` state when every step taken meets `good`. -/
inductive Reach (init : σ → Prop) (step : σ → α → Option σ) (good : σ → α → Prop) : σ → Prop
  | init {s : σ} : init s → Reach init step good s
  | step {s t : σ} {a : α} :
      Reach init step good s → good s a → step s a = some t → Reach init step good t

variable {init : σ → Prop} {step : σ → α → Option σ} {good : σ → α → Prop}

/-- **The invariant rule.**  What holds at the start and is kept by every good step holds in every
    state reached. -/
theorem Reach.invariant {I : σ → Prop} (h0 : ∀ s, init s → I s)
    (hs : ∀ s a t, I s → good s a → step s a = some t → I t) {s : σ}
    (h : Reach init step good s) : I s := by
  induction h with
  | init h => exact h0 _ h
  | step _ hg hst ih => exact hs _ _ _ ih hg hst

/-- Run a list of labels. -/
def exec (step : σ → α → Option σ) : List α → σ → Option σ
  | [], s => some s
  | a :: as, s => (step s a).bind (exec step as)

/-- The steps of `exec`, each meeting `good`. -/
def Along (step : σ → α → Option σ) (good : σ → α → Prop) : List α → σ → Prop
  | [], _ => True
  | a :: as, s => good s a ∧ ∀ t, step s a = some t → Along step good as t

/-- An evaluated run is a run. -/
theorem Reach.exec {as : List α} : ∀ {s t : σ}, Reach init step good s → Along step good as s →
    exec step as s = some t → Reach init step good t := by
  induction as with
  | nil =>
    intro s t h _ he
    obtain rfl : s = t := by simpa [Run.exec] using he
    exact h
  | cons a as ih =>
    intro s t h hal he
    obtain ⟨u, hu, hut⟩ : ∃ u, step s a = some u ∧ Run.exec step as u = some t := by
      simpa [Run.exec, Option.bind_eq_some_iff] using he
    exact ih (Reach.step h hal.1 hu) (hal.2 u hu) hut

/-- The last step of an evaluated run. -/
theorem exec_concat {a : α} : ∀ {as : List α} {s t : σ}, Run.exec step (as ++ [a]) s = some t →
    ∃ u, Run.exec step as s = some u ∧ step u a = some t
  | [], s, t, h => by
    obtain ⟨u, hu, hut⟩ := Option.bind_eq_some_iff.mp h
    obtain rfl : u = t := by simpa [Run.exec] using hut
    exact ⟨s, rfl, hu⟩
  | b :: as, s, t, h => by
    obtain ⟨v, hv, hvt⟩ := Option.bind_eq_some_iff.mp h
    obtain ⟨u, hu, hut⟩ := exec_concat hvt
    exact ⟨u, by simp [Run.exec, hv, hu], hut⟩

/-- A run that can be evaluated, with what is observed at its end. -/
theorem exists_of_any {p : σ → Bool} {as : List α} {s : σ}
    (h : (Run.exec step as s).any p = true) : ∃ t, Run.exec step as s = some t ∧ p t = true := by
  cases he : Run.exec step as s with
  | none => rw [he] at h; cases h
  | some t => exact ⟨t, rfl, by simpa [he] using h⟩

/-- Take a step only where the test `q` allows it. -/
def checked (step : σ → α → Option σ) (q : σ → α → Bool) (s : σ) (a : α) : Option σ :=
  if q s a then step s a else none

/-- A run that can be evaluated with a test of every step is a run of good steps, when the test and
    what is known of the labels make a step good. -/
theorem Reach.checked {q : σ → α → Bool} : ∀ {as : List α} {s t : σ},
    (∀ a ∈ as, ∀ s, q s a = true → good s a) → Reach init step good s →
    Run.exec (Run.checked step q) as s = some t →
    Reach init step good t ∧ Run.exec step as s = some t
  | [], s, t, _, h, he => by
    obtain rfl : s = t := by simpa [Run.exec] using he
    exact ⟨h, rfl⟩
  | a :: as, s, t, hgood, h, he => by
    obtain ⟨u, hu, hut⟩ := Option.bind_eq_some_iff.mp he
    obtain ⟨hq, hu⟩ : q s a = true ∧ step s a = some u := by simpa [Run.checked] using hu
    have hu' : Reach init step good u := Reach.step h (hgood a List.mem_cons_self s hq) hu
    obtain ⟨hr, hex⟩ := Reach.checked (fun b hb => hgood b (List.mem_cons_of_mem a hb)) hu' hut
    exact ⟨hr, by simp [Run.exec, hu, hex]⟩

/-- A condition that does not depend on the state. -/
theorem along_of_forall : ∀ {as : List α}, (∀ a ∈ as, ∀ s, good s a) → ∀ s : σ, Along step good as s
  | [], _, _ => trivial
  | a :: _, h, s => ⟨h a List.mem_cons_self s, fun t _ =>
      along_of_forall (fun b hb => h b (List.mem_cons_of_mem a hb)) t⟩

/-- With no condition on the steps, evaluating is enough. -/
theorem along_true (as : List α) (s : σ) : Along step (fun _ _ => True) as s :=
  along_of_forall (fun _ _ _ => trivial) s

/-- **A script with pauses.**  `Q as` says that the script `as` is still to come.  When each of its
    operations can be done and leads on, and the `idle` ones in between lead nowhere, the script is
    done at the end of any list of labels that it and idle ones make up.  Induction on that list. -/
theorem exec_interleaved {Q : List α → σ → Prop} {idle : α → Bool}
    (hstep : ∀ a as s, Q (a :: as) s → ∃ t, step s a = some t ∧ Q as t)
    (hidle : ∀ a as s, idle a = true → Q as s → ∃ t, step s a = some t ∧ Q as t) :
    ∀ {l as : List α} {s : σ}, (l.filter fun a => !idle a) = as → Q as s →
      ∃ t, Run.exec step l s = some t ∧ Q [] t
  | [], as, s, hl, hq => by
    obtain rfl : [] = as := hl
    exact ⟨s, rfl, hq⟩
  | a :: l, as, s, hl, hq => by
    have hrest : ∀ {as' : List α} {u : σ}, step s a = some u → (l.filter fun a => !idle a) = as' →
        Q as' u → ∃ t, Run.exec step (a :: l) s = some t ∧ Q [] t := by
      intro as' u hu hl' hq'
      obtain ⟨t, ht, hend⟩ := exec_interleaved hstep hidle hl' hq'
      exact ⟨t, by simp [Run.exec, hu, ht], hend⟩
    by_cases ha : idle a = true
    · obtain ⟨u, hu, hq'⟩ := hidle a as s ha hq
      exact hrest hu (by simpa [ha] using hl) hq'
    · have hl' : a :: (l.filter fun a => !idle a) = as := by simpa [ha] using hl
      subst hl'
      obtain ⟨u, hu, hq'⟩ := hstep a _ s hq
      exact hrest hu rfl hq'

/-- What is seen of a run, one event at most of each step. -/
def trace {β : Type w} (step : σ → α → Option σ) (seen : σ → α → σ → Option β) : List α → σ → List β
  | [], _ => []
  | a :: as, s =>
    match step s a with
    | none => []
    | some t => (seen s a t).toList ++ trace step seen as t

/-- The moves of a system, with what is seen of them. -/
inductive Path {τ : Type u'} {β : Type w} (moves : Option β → τ → τ → Prop) : List β → τ → τ → Prop
  | refl (x : τ) : Path moves [] x x
  | head {e : Option β} {es : List β} {x y z : τ} :
      moves e x y → Path moves es y z → Path moves (e.toList ++ es) x z

section Simulation

variable {τ : Type u'} {β : Type w} {moves : Option β → τ → τ → Prop}

theorem Path.invariant {I : τ → Prop} (hs : ∀ e x y, I x → moves e x y → I y) {es : List β} {x y : τ}
    (h : Path moves es x y) (hx : I x) : I y := by
  induction h with
  | refl => exact hx
  | head hm _ ih => exact ih (hs _ _ _ hx hm)

/-- **The simulation rule.**  When each step leads to a state related to the same state of the coarser
    system, and nothing is seen of it, or to one that system moves on to, and the same is seen, then a
    run is a path of that system with the same trace.  Induction on the labels of the run. -/
theorem exec_simulated {R : σ → τ → Prop} {seen : σ → α → σ → Option β}
    (hs : ∀ s a t x, R s x → step s a = some t →
      (seen s a t = none ∧ R t x) ∨ ∃ y, moves (seen s a t) x y ∧ R t y) :
    ∀ {as : List α} {s t : σ} {x : τ}, R s x → Run.exec step as s = some t →
      ∃ y, Path moves (trace step seen as s) x y ∧ R t y
  | [], s, t, x, hr, he => by
    obtain rfl : s = t := by simpa [Run.exec] using he
    exact ⟨x, .refl x, hr⟩
  | a :: as, s, t, x, hr, he => by
    obtain ⟨u, hu, hut⟩ := Option.bind_eq_some_iff.mp he
    simp only [trace, hu]
    rcases hs s a u x hr hu with ⟨hnone, hr'⟩ | ⟨y, hm, hr'⟩
    · obtain ⟨z, hpath, hz⟩ := exec_simulated hs hr' hut
      rw [hnone]
      exact ⟨z, hpath, hz⟩
    · obtain ⟨z, hpath, hz⟩ := exec_simulated hs hr' hut
      exact ⟨z, .head hm hpath, hz⟩

end Simulation

end RubyQueue.Run
