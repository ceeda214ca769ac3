/-
  `Integer(value)` of Ruby.

  Ruby reads a numeral with a zero in front in octal: `Integer('010')` is 8, and `Integer('08')`
  raises.  SQLite reads both in decimal (`digitsValue`).

  * `unsigned_digits` — what `Integer` makes of a text of digits;
  * `integer_eq_iff`  — when Ruby and SQLite read the same number.
-/
import Mathlib.Tactic.IntervalCases
import RubyQueue.Base.Numeral
import RubyQueue.JobQueue

namespace RubyQueue.Integer

open RubyQueue.Sqlite RubyQueue.Quote RubyQueue.JobQueue

/-- The value of a digit in the radix `b`. -/
def digit (b : Nat) (c : Char) : Option Nat :=
  let d :=
    if c.isDigit then c.toNat - '0'.toNat
    else if c.isAlpha then c.toLower.toNat - 'a'.toNat + 10
    else b
  if d < b then some d else none

/-- Digits after a digit, an underscore allowed between two of them. -/
def moreDigits (b : Nat) : Nat → Text → Option Nat
  | n, [] => some n
  | n, '_' :: c :: s => (digit b c).bind fun d => moreDigits b (n * b + d) s
  | n, c :: s => (digit b c).bind fun d => moreDigits b (n * b + d) s

def digits (b : Nat) : Text → Option Nat
  | [] => none
  | c :: s => (digit b c).bind fun d => moreDigits b d s

/-- A numeral without a sign: the prefixes for a radix, and octal after a zero. -/
def unsigned : Text → Option Nat
  | '0' :: c :: s =>
    if c = 'x' ∨ c = 'X' then digits 16 s
    else if c = 'b' ∨ c = 'B' then digits 2 s
    else if c = 'o' ∨ c = 'O' then digits 8 s
    else if c = 'd' ∨ c = 'D' then digits 10 s
    else digits 8 ('0' :: c :: s)
  | s => digits 10 s

/-- What it says when it raises. -/
def invalid (value : Text) : String :=
  "invalid value for Integer(): \"" ++ String.ofList value ++ "\""

/-- `Integer(s)` of a text without blanks and without a sign. -/
def integer (s : Text) : Except String Nat :=
  match unsigned s with
  | some n => .ok n
  | none => .error (invalid s)

/-- `Integer(value)` of a text without blanks. -/
def signed (value : Text) : Except String Int :=
  let n :=
    match value with
    | '-' :: s => (unsigned s).map fun n => -(n : Int)
    | '+' :: s => (unsigned s).map Int.ofNat
    | s => (unsigned s).map Int.ofNat
  match n with
  | some n => .ok n
  | none => .error (invalid value)

example : signed "-0x1f".toList = .ok (-31) ∧ signed "1_0".toList = .ok 10 := by decide

/-! ## Digits -/

theorem digit_isDigit {b : Nat} {c : Char} (hc : c.isDigit = true) :
    digit b c = if c.toNat - '0'.toNat < b then some (c.toNat - '0'.toNat) else none := by
  unfold digit
  simp only [hc, if_true]

/-- A digit below the radix, and the digits after it. -/
theorem moreDigits_cons {b n : Nat} {c : Char} {s : Text} (hc : c.isDigit = true) :
    moreDigits b n (c :: s)
      = (digit b c).bind fun d => moreDigits b (n * b + d) s := by
  have hne : c ≠ '_' := by
    rintro rfl
    cases hc
  rw [moreDigits]
  rintro d t rfl
  exact absurd rfl hne

/-- The digits are below the radix. -/
def below (b : Nat) (s : Text) : Bool := s.all fun c => c.toNat - '0'.toNat < b

/-- **Digits**: their value, when they are all below the radix. -/
theorem moreDigits_digits {b : Nat} : ∀ {s : Text} {n : Nat}, (∀ c ∈ s, c.isDigit = true) →
    moreDigits b n s = if below b s then some (Nat.ofDigitChars b s n) else none
  | [], n, _ => rfl
  | c :: s, n, h => by
    have ih := @moreDigits_digits b s (n * b + (c.toNat - '0'.toNat))
      fun d hd => h d (List.mem_cons_of_mem c hd)
    have hbelow : below b (c :: s) = (decide (c.toNat - '0'.toNat < b) && below b s) := rfl
    rw [moreDigits_cons (h c List.mem_cons_self), digit_isDigit (h c List.mem_cons_self), hbelow]
    by_cases hlt : c.toNat - '0'.toNat < b
    · rw [if_pos hlt, Option.bind_some, ih, Nat.ofDigitChars_cons, Nat.mul_comm, decide_eq_true hlt,
        Bool.true_and]
    · rw [if_neg hlt, Option.bind_none, decide_eq_false hlt, Bool.false_and]
      rfl

theorem digits_digits {b : Nat} {s : Text} (h : allDigits s = true) :
    digits b s = if below b s then some (Nat.ofDigitChars b s 0) else none := by
  obtain ⟨hne, hall⟩ := Bool.and_eq_true_iff.mp h
  obtain ⟨c, s, rfl⟩ := List.exists_cons_of_ne_nil (by simpa using hne : s ≠ [])
  have hdigits := List.all_eq_true.mp hall
  have hmore := @moreDigits_digits b (c :: s) 0 hdigits
  rw [moreDigits_cons (hdigits c List.mem_cons_self)] at hmore
  rw [digits, ← hmore, Nat.zero_mul]
  simp only [Nat.zero_add]

/-- The digits that are octal. -/
theorem isDigit_lt_eight {c : Char} (hc : c.isDigit = true) : c.toNat - '0'.toNat < 8 ↔ c < '8' := by
  rw [Char.isDigit, Bool.and_eq_true, decide_eq_true_eq, decide_eq_true_eq] at hc
  have hle : '0'.toNat ≤ c.toNat := hc.1
  have hlt : c < '8' ↔ c.toNat < '8'.toNat := Iff.rfl
  have hzero : '0'.toNat = 48 := rfl
  have height : '8'.toNat = 56 := rfl
  rw [hlt]
  omega

/-- **`Integer` of digits**: octal after a zero, decimal otherwise. -/
theorem unsigned_digits {s : Text} (h : allDigits s = true) :
    unsigned s = if s.head? = some '0' then
        if s.all (· < '8') = true then some (Nat.ofDigitChars 8 s 0) else none
      else some (digitsValue s) := by
  have hdigits := List.all_eq_true.mp (Bool.and_eq_true_iff.mp h).2
  have hten : digits 10 s = some (digitsValue s) := by
    rw [digits_digits h, if_pos, digitsValue_eq]
    refine List.all_eq_true.mpr fun c hc => decide_eq_true ?_
    have hdigit := hdigits c hc
    rw [Char.isDigit, Bool.and_eq_true, decide_eq_true_eq, decide_eq_true_eq] at hdigit
    have hle : c.toNat ≤ '9'.toNat := hdigit.2
    have hnine : '9'.toNat = 57 := rfl
    have hzero : '0'.toNat = 48 := rfl
    omega
  have height : digits 8 s
      = if s.all (· < '8') = true then some (Nat.ofDigitChars 8 s 0) else none := by
    have hsame : below 8 s = s.all (· < '8') := by
      unfold below
      rw [Bool.eq_iff_iff, List.all_eq_true, List.all_eq_true]
      refine forall₂_congr fun c hc => ?_
      rw [decide_eq_true_iff, decide_eq_true_iff, isDigit_lt_eight (hdigits c hc)]
    rw [digits_digits h, hsame]
  unfold unsigned
  split
  · rename_i c t
    -- the character after the zero is a digit, and names no radix
    have hc : c.isDigit = true := hdigits c (List.mem_cons_of_mem _ List.mem_cons_self)
    have hne : ∀ d : Char, d.isDigit = false → c ≠ d := by
      rintro d hd rfl
      rw [hc] at hd
      cases hd
    rw [if_neg (by simp [hne]), if_neg (by simp [hne]), if_neg (by simp [hne]),
      if_neg (by simp [hne]), height]
    rfl
  · rename_i hother
    by_cases hzero : s.head? = some '0'
    · obtain ⟨t, rfl⟩ := List.head?_eq_some_iff.mp hzero
      cases t with
      | nil => rfl
      | cons c t => exact absurd rfl (hother c t)
    · rw [if_neg hzero, hten]

/-- A numeral whose octal reading, if it has one, is its decimal one: after the zeros in front there
    is one digit at most, and that is an octal one. -/
def ReadsDecimal (s : Text) : Prop :=
  s.head? = some '0' → (s.dropWhile (· == '0')).length ≤ 1 ∧ s.all (· < '8') = true

instance (s : Text) : Decidable (ReadsDecimal s) := inferInstanceAs (Decidable (_ → _))

theorem integer_eq_ok_iff {s : Text} {n : Nat} : integer s = .ok n ↔ unsigned s = some n := by
  unfold integer
  cases unsigned s <;> simp

/-- **When it returns.** -/
theorem integer_ok_iff {s : Text} (h : allDigits s = true) :
    (∃ n, integer s = .ok n) ↔ (s.head? = some '0' → s.all (· < '8') = true) := by
  simp only [integer_eq_ok_iff, unsigned_digits h]
  by_cases hzero : s.head? = some '0'
  · by_cases hoctal : s.all (· < '8') = true
    · simp [hzero, hoctal]
    · simp [hzero, hoctal]
  · simp [hzero]

/-- **When Ruby and SQLite read the same number.** -/
theorem integer_eq_iff {s : Text} (h : allDigits s = true) :
    integer s = .ok (digitsValue s) ↔ ReadsDecimal s := by
  have hdigits := List.all_eq_true.mp (Bool.and_eq_true_iff.mp h).2
  rw [integer_eq_ok_iff, unsigned_digits h]
  unfold ReadsDecimal
  by_cases hzero : s.head? = some '0'
  · rw [if_pos hzero]
    by_cases hoctal : s.all (· < '8') = true
    · rw [if_pos hoctal, digitsValue_eq, Option.some.injEq,
        Numeral.ofDigitChars_eq_iff (by decide) (by decide) hdigits]
      exact ⟨fun hlen _ => ⟨hlen, hoctal⟩, fun h => (h hzero).1⟩
    · rw [if_neg hoctal]
      constructor
      · intro h
        cases h
      · intro h
        exact absurd (h hzero).2 hoctal
  · rw [if_neg hzero]
    exact ⟨fun _ h => absurd h hzero, fun _ => rfl⟩

/-- A number is written without a zero in front. -/
theorem head_toDigits : ∀ {n : Nat}, 0 < n → (Nat.toDigits 10 n).head? ≠ some '0' := by
  intro n
  induction n using Nat.strongRecOn with
  | ind n ih =>
    intro hpos
    by_cases hlt : n < 10
    · rw [Nat.toDigits_of_lt_base hlt]
      interval_cases n <;> decide
    · have hq : 0 < n / 10 := Nat.div_pos (not_lt.mp hlt) (by decide)
      rw [Nat.toDigits_of_base_le (by decide) (not_lt.mp hlt),
        List.head?_append_of_ne_nil _ Nat.toDigits_ne_nil]
      exact ih (n / 10) (Nat.div_lt_self hpos (by decide)) hq

/-- `Integer` of a number as it is printed. -/
theorem integer_toString (n : Nat) : integer (toString n).toList = .ok n := by
  have hread : ReadsDecimal (toString n).toList := by
    intro hzero
    have htext : (toString n).toList = Nat.toDigits 10 n := by simp
    rw [htext] at hzero ⊢
    rcases Nat.eq_zero_or_pos n with rfl | hpos
    · decide
    · exact absurd hzero (head_toDigits hpos)
  rw [(integer_eq_iff (allDigits_toString n)).mpr hread, digitsValue_toString]

theorem unsigned_toString (n : Nat) : unsigned (toString n).toList = some n :=
  integer_eq_ok_iff.mp (integer_toString n)

/-- Two digits after a zero are never read as SQLite reads them. -/
example : integer "10".toList = .ok 10 ∧ integer "010".toList = .ok 8 ∧ ¬ ReadsDecimal "08".toList := by
  decide

end RubyQueue.Integer
