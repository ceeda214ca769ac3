/-
  Programs that may raise, may be retried and may choose, as what they can do.

  A program relates the state it starts in to its outcomes: what it did on the way (`trace`), the
  state it leaves, and whether it returned or raised.  Choices of the environment are further
  outcomes, so a statement about every outcome is one about every run.

  `Keeps I D a` is the one thing proved of a program: from a state of `I` it leaves a state of `I`,
  returned or raised, and everything it did meets `D`.  There is a rule for each combinator; the rule
  of `bracket` (`begin … ensure … end`) is where the invariant changes.
-/
import Mathlib.Logic.Basic

namespace RubyQueue.Behaviour

universe u v

variable {σ : Type u} {ε : Type v}

/-- What a run did, the state it left, and whether it returned. -/
structure Outcome (σ : Type u) (ε : Type v) where
  trace : List ε
  state : σ
  ok : Bool

/-- The outcomes of a program from each state. -/
abbrev Program (σ : Type u) (ε : Type v) := σ → Outcome σ ε → Prop

/-! ## Programs -/

/-- Return. -/
def ret : Program σ ε := fun s o => o = ⟨[], s, true⟩

/-- Raise. -/
def raise : Program σ ε := fun s o => o = ⟨[], s, false⟩

/-- `b` after `a`, unless `a` raises. -/
def andThen (a b : Program σ ε) : Program σ ε := fun s o =>
  (a s o ∧ o.ok = false) ∨
    ∃ o₁ o₂, a s o₁ ∧ o₁.ok = true ∧ b o₁.state o₂ ∧ o = ⟨o₁.trace ++ o₂.trace, o₂.state, o₂.ok⟩

/-- One of the two. -/
def either (a b : Program σ ε) : Program σ ε := fun s o => a s o ∨ b s o

/-- `begin a rescue nil end`. -/
def rescued (a : Program σ ε) : Program σ ε := fun s o => ∃ r, a s { o with ok := r } ∧ o.ok = true

/-- A loop around `a`. -/
inductive Many (a : Program σ ε) : Program σ ε
  | stop (s : σ) : Many a s ⟨[], s, true⟩
  | raised {s : σ} {o : Outcome σ ε} : a s o → o.ok = false → Many a s o
  | next {s : σ} {o₁ o₂ : Outcome σ ε} : a s o₁ → o₁.ok = true → Many a o₁.state o₂ →
      Many a s ⟨o₁.trace ++ o₂.trace, o₂.state, o₂.ok⟩

/-- `begin a rescue retry end`, which gives up at some point. -/
inductive Retried (a : Program σ ε) : Program σ ε
  | last {s : σ} {o : Outcome σ ε} : a s o → Retried a s o
  | again {s : σ} {o₁ o₂ : Outcome σ ε} : a s o₁ → o₁.ok = false → Retried a o₁.state o₂ →
      Retried a s ⟨o₁.trace ++ o₂.trace, o₂.state, o₂.ok⟩

/-- `enter; begin a ensure leave end`; `leave` may raise. -/
def bracket (enter leave : σ → σ) (a : Program σ ε) : Program σ ε := fun s o =>
  ∃ o₁, a (enter s) o₁ ∧ o.trace = o₁.trace ∧ o.state = leave o₁.state ∧ (o.ok = true → o₁.ok = true)

/-! ## The rules -/

/-- `a` keeps `I`, and what it does meets `D`. -/
def Keeps (I : σ → Prop) (D : ε → Prop) (a : Program σ ε) : Prop :=
  ∀ s o, I s → a s o → I o.state ∧ ∀ e ∈ o.trace, D e

section Rules

variable {I J : σ → Prop} {D : ε → Prop} {a b : Program σ ε}

theorem keeps_ret : Keeps I D (ret : Program σ ε) := by
  rintro s o hI rfl
  exact ⟨hI, fun e he => absurd he List.not_mem_nil⟩

theorem keeps_raise : Keeps I D (raise : Program σ ε) := by
  rintro s o hI rfl
  exact ⟨hI, fun e he => absurd he List.not_mem_nil⟩

theorem keeps_andThen (ha : Keeps I D a) (hb : Keeps I D b) : Keeps I D (andThen a b) := by
  rintro s o hI (⟨h, -⟩ | ⟨o₁, o₂, h₁, -, h₂, rfl⟩)
  · exact ha s o hI h
  · obtain ⟨hI₁, hD₁⟩ := ha s o₁ hI h₁
    obtain ⟨hI₂, hD₂⟩ := hb o₁.state o₂ hI₁ h₂
    exact ⟨hI₂, fun e he => (List.mem_append.mp he).elim (hD₁ e) (hD₂ e)⟩

theorem keeps_either (ha : Keeps I D a) (hb : Keeps I D b) : Keeps I D (either a b) := by
  rintro s o hI (h | h)
  · exact ha s o hI h
  · exact hb s o hI h

theorem keeps_rescued (ha : Keeps I D a) : Keeps I D (rescued a) := by
  rintro s o hI ⟨r, h, -⟩
  exact ha s { o with ok := r } hI h

/-- **The rule of the loop**, by induction on the turns. -/
theorem keeps_many (ha : Keeps I D a) : Keeps I D (Many a) := by
  intro s o hI h
  induction h with
  | stop s => exact ⟨hI, fun e he => absurd he List.not_mem_nil⟩
  | raised h _ => exact ha _ _ hI h
  | next h _ _ ih =>
    obtain ⟨hI₁, hD₁⟩ := ha _ _ hI h
    obtain ⟨hI₂, hD₂⟩ := ih hI₁
    exact ⟨hI₂, fun e he => (List.mem_append.mp he).elim (hD₁ e) (hD₂ e)⟩

/-- **The rule of the retry**, by induction on the attempts. -/
theorem keeps_retried (ha : Keeps I D a) : Keeps I D (Retried a) := by
  intro s o hI h
  induction h with
  | last h => exact ha _ _ hI h
  | again h _ _ ih =>
    obtain ⟨hI₁, hD₁⟩ := ha _ _ hI h
    obtain ⟨hI₂, hD₂⟩ := ih hI₁
    exact ⟨hI₂, fun e he => (List.mem_append.mp he).elim (hD₁ e) (hD₂ e)⟩

/-- **The rule of `ensure`**: inside, another invariant. -/
theorem keeps_bracket {enter leave : σ → σ} (henter : ∀ s, I s → J (enter s))
    (hleave : ∀ s, J s → I (leave s)) (ha : Keeps J D a) : Keeps I D (bracket enter leave a) := by
  rintro s o hI ⟨o₁, h, htrace, hstate, -⟩
  obtain ⟨hJ, hD⟩ := ha (enter s) o₁ (henter s hI) h
  rw [hstate, htrace]
  exact ⟨hleave _ hJ, hD⟩

end Rules

/-! ## Runs -/

section Runs

variable {a b : Program σ ε} {s s₁ s₂ : σ} {tr tr' : List ε} {r : Bool}

theorem andThen_run (ha : a s ⟨tr, s₁, true⟩) (hb : b s₁ ⟨tr', s₂, r⟩) :
    andThen a b s ⟨tr ++ tr', s₂, r⟩ :=
  .inr ⟨⟨tr, s₁, true⟩, ⟨tr', s₂, r⟩, ha, rfl, hb, rfl⟩

theorem andThen_raised (ha : a s ⟨tr, s₁, false⟩) : andThen a b s ⟨tr, s₁, false⟩ :=
  .inl ⟨ha, rfl⟩

theorem bracket_run {enter leave : σ → σ} (ha : a (enter s) ⟨tr, s₁, r⟩) :
    bracket enter leave a s ⟨tr, leave s₁, r⟩ :=
  ⟨⟨tr, s₁, r⟩, ha, rfl, rfl, id⟩

end Runs

end RubyQueue.Behaviour
