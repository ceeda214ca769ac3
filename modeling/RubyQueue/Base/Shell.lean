/-
  Quoting and comments in the command language of the shell.

  `step` is the state of a reader after one more character: whether a word could start here, or the
  text is inside a word, inside quotes, behind a backslash, or in a comment.  A `#` starts a comment
  where a word could start, and the comment goes on to the end of the line.

  * `uncomment`          — the text the shell acts on: what is in a comment is dropped;
  * `uncomment_eq_self_iff` — nothing is dropped exactly when no `#` stands where a word could start.
-/
import Mathlib.Data.List.Basic

namespace RubyQueue.Shell

/-- Where a reader of shell text is. -/
inductive Lex
  | start
  | word
  | single
  | double
  | escaped (inWord : Bool)
  | escapedInDouble
  | comment
deriving DecidableEq, Repr

/-- Blanks, newlines and operators: a word can start after them. -/
def separates (c : Char) : Bool := [' ', '\t', '\n', ';', '&', '|', '(', ')', '<', '>'].contains c

/-- A character outside quotes. -/
def outside (inWord : Bool) (c : Char) : Lex :=
  if c = '\'' then .single
  else if c = '"' then .double
  else if c = '\\' then .escaped inWord
  else if separates c then .start
  else if !inWord && c == '#' then .comment
  else .word

/-- One character. -/
def step : Lex → Char → Lex
  | .start, c => outside false c
  | .word, c => outside true c
  | .single, c => if c = '\'' then .word else .single
  | .double, c => if c = '"' then .word else if c = '\\' then .escapedInDouble else .double
  -- a backslash and a newline are nothing at all
  | .escaped inWord, c => if c = '\n' ∧ inWord = false then .start else .word
  | .escapedInDouble, _ => .double
  | .comment, c => if c = '\n' then .start else .comment

/-- Where a reader is after a text. -/
def lexState (s : List Char) : Lex := s.foldl step .start

/-- No `#` stands where a word could start: every one is quoted, escaped or inside a word. -/
def NoComment (s : List Char) : Prop := ∀ a b, s = a ++ '#' :: b → lexState a ≠ .start

/-- The text without its comments. -/
def uncomment : Lex → List Char → List Char
  | _, [] => []
  | st, c :: s =>
    if step st c = .comment then uncomment (step st c) s else c :: uncomment (step st c) s

theorem step_eq_comment {st : Lex} {c : Char} (hst : st ≠ .comment) :
    step st c = .comment ↔ st = .start ∧ c = '#' := by
  have houtside : ∀ inWord, outside inWord c = .comment ↔ inWord = false ∧ c = '#' := by
    intro inWord
    constructor
    · intro h
      unfold outside at h
      split at h <;> try cases h
      split at h <;> try cases h
      split at h <;> try cases h
      split at h <;> try cases h
      split at h
      · next hc => simpa using hc
      · cases h
    · rintro ⟨rfl, rfl⟩
      decide
  cases st with
  | start => simpa [step] using houtside false
  | word => simpa [step] using houtside true
  | single => simp only [step]; split <;> simp
  | double => simp only [step]; split <;> [simp; (split <;> simp)]
  | escaped inWord => simp only [step]; split <;> simp
  | escapedInDouble => simp [step]
  | comment => exact absurd rfl hst

theorem length_uncomment : ∀ (st : Lex) (s : List Char), (uncomment st s).length ≤ s.length
  | _, [] => Nat.le_refl 0
  | st, c :: s => by
    have := length_uncomment (step st c) s
    unfold uncomment
    split
    · exact Nat.le_succ_of_le this
    · exact Nat.succ_le_succ this

/-- From any state outside a comment. -/
theorem uncomment_eq_self_from : ∀ {s : List Char} {st : Lex}, st ≠ .comment →
    (uncomment st s = s ↔ ∀ a b, s = a ++ '#' :: b → a.foldl step st ≠ .start)
  | [], st, _ => by simp [uncomment]
  | c :: s, st, hst => by
    unfold uncomment
    by_cases hc : step st c = .comment
    · rw [if_pos hc]
      obtain ⟨rfl, rfl⟩ := (step_eq_comment hst).mp hc
      constructor
      · intro h
        have hlen := length_uncomment (step .start '#') s
        rw [h] at hlen
        exact absurd hlen (Nat.not_succ_le_self s.length)
      · intro h
        exact absurd rfl (h [] s rfl)
    · rw [if_neg hc, List.cons.injEq, eq_self, true_and, uncomment_eq_self_from hc]
      constructor
      · intro h a b hab
        cases a with
        | nil =>
          obtain ⟨rfl, rfl⟩ := List.cons.inj hab
          rintro rfl
          exact hc ((step_eq_comment hst).mpr ⟨rfl, rfl⟩)
        | cons d a =>
          obtain ⟨rfl, rfl⟩ := List.cons.inj hab
          exact h a b rfl
      · rintro h a b rfl
        exact h (c :: a) b rfl

/-- **Nothing is dropped from a text without comments, and from no other.** -/
theorem uncomment_eq_self_iff {s : List Char} : uncomment .start s = s ↔ NoComment s :=
  uncomment_eq_self_from (by decide)

instance (s : List Char) : Decidable (NoComment s) := decidable_of_iff _ uncomment_eq_self_iff

end RubyQueue.Shell
