/-
  One text of digits, read in two bases.

  `Nat.ofDigitChars b ds 0` is the number the digits `ds` show in base `b`.  Once the bigger base is
  ahead it stays so (`ofDigitChars_lt`), and it is ahead from the second digit after the leading zeros
  on: `ofDigitChars_eq_iff` says that the two readings agree exactly when there is one such digit at most.
-/
import Mathlib.Data.Nat.Digits.Defs

namespace RubyQueue.Numeral

open Nat (ofDigitChars ofDigitChars_cons ofDigitChars_nil)

variable {b b' : Nat}

/-- Ahead is ahead in the bigger base, whatever digits follow. -/
theorem ofDigitChars_lt (hb : 0 < b) (h : b ≤ b') : ∀ {ds : List Char} {m n : Nat}, m < n →
    ofDigitChars b ds m < ofDigitChars b' ds n
  | [], m, n, hmn => by rwa [ofDigitChars_nil, ofDigitChars_nil]
  | c :: ds, m, n, hmn => by
    rw [ofDigitChars_cons, ofDigitChars_cons]
    refine ofDigitChars_lt hb h (Nat.add_lt_add_right ?_ _)
    calc b * m < b * n := Nat.mul_lt_mul_of_pos_left hmn hb
      _ ≤ b' * n := Nat.mul_le_mul_right n h

/-- Zeros in front show nothing. -/
theorem ofDigitChars_zero (ds : List Char) :
    ofDigitChars b ('0' :: ds) 0 = ofDigitChars b ds 0 := by
  rw [ofDigitChars_cons, Nat.mul_zero]
  rfl

/-- **Two bases agree on one digit at most**, not counting the zeros in front.  Induction on these;
    after the first other digit the bigger base is ahead, and stays so. -/
theorem ofDigitChars_eq_iff (hb : 0 < b) (h : b < b') : ∀ {ds : List Char},
    (∀ c ∈ ds, c.isDigit = true) →
    (ofDigitChars b ds 0 = ofDigitChars b' ds 0 ↔ (ds.dropWhile (· == '0')).length ≤ 1)
  | [], _ => by simp
  | c :: ds, hds => by
    by_cases hc : c = '0'
    · subst hc
      rw [ofDigitChars_zero, ofDigitChars_zero, List.dropWhile_cons_of_pos rfl]
      exact ofDigitChars_eq_iff hb h fun d hd => hds d (List.mem_cons_of_mem _ hd)
    · have hpos : 0 < c.toNat - '0'.toNat := by
        have hdigit := hds c List.mem_cons_self
        rw [Char.isDigit, Bool.and_eq_true, decide_eq_true_eq, decide_eq_true_eq] at hdigit
        have hne : c.toNat ≠ '0'.toNat := fun heq => hc (Char.toNat_inj.mp heq)
        have hle : '0'.toNat ≤ c.toNat := hdigit.1
        omega
      rw [List.dropWhile_cons_of_neg (by simpa using hc), ofDigitChars_cons, ofDigitChars_cons,
        Nat.mul_zero, Nat.mul_zero, Nat.zero_add]
      cases ds with
      | nil => simp
      | cons d ds =>
        have hlt : ofDigitChars b (d :: ds) (c.toNat - '0'.toNat)
            < ofDigitChars b' (d :: ds) (c.toNat - '0'.toNat) := by
          rw [ofDigitChars_cons, ofDigitChars_cons]
          exact ofDigitChars_lt hb h.le (Nat.add_lt_add_right (Nat.mul_lt_mul_of_pos_right h hpos) _)
        simp only [List.length_cons]
        omega

end RubyQueue.Numeral
