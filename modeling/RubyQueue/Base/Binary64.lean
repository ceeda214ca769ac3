/-
  Numbers in double precision.

  A finite double is a multiple of `2 ^ -1074` with at most 53 significant bits, below `2 ^ 1024`.
  `round` takes a rational to the nearest one of unbounded size, a tie to the one with the even
  mantissa; `ofRat` also lets what is too big overflow to an infinity.  The sum and the difference of
  two doubles are the exact ones rounded, and not a number where the infinities leave it open; `nan` is
  in no order with anything.

  * `round_mono`      — rounding keeps the order;
  * `round_round`     — and leaves alone what it has rounded;
  * `add_finite`      — so adding a finite double is `plus`, a monotone map of the line with its ends;
  * `units_lt`        — and between two finite doubles there are finitely many.

  The two zeros are one number here, as they are to every comparison.
-/
import Mathlib.Algebra.Order.Field.Power
import Mathlib.Data.Int.Log
import Mathlib.Data.Rat.Floor
import Mathlib.Order.WithBot
import Mathlib.Tactic.Linarith
import Mathlib.Tactic.Positivity
import Mathlib.Tactic.Ring

namespace RubyQueue.Binary64

/-! ## To the nearest integer -/

/-- The nearest integer, of two the even one. -/
def roundEven (q : ℚ) : ℤ :=
  if q - ⌊q⌋ < 1 / 2 then ⌊q⌋
  else if 1 / 2 < q - ⌊q⌋ then ⌊q⌋ + 1
  else if ⌊q⌋ % 2 = 0 then ⌊q⌋ else ⌊q⌋ + 1

theorem floor_le_roundEven (q : ℚ) : ⌊q⌋ ≤ roundEven q := by
  unfold roundEven
  split_ifs <;> omega

theorem roundEven_le (q : ℚ) : roundEven q ≤ ⌊q⌋ + 1 := by
  unfold roundEven
  split_ifs <;> omega

theorem roundEven_mono {p q : ℚ} (h : p ≤ q) : roundEven p ≤ roundEven q := by
  rcases lt_or_eq_of_le (Int.floor_le_floor h) with hlt | heq
  · calc roundEven p ≤ ⌊p⌋ + 1 := roundEven_le p
      _ ≤ ⌊q⌋ := hlt
      _ ≤ roundEven q := floor_le_roundEven q
  · -- in the same unit the later one is rounded up if the earlier one is
    have hfrac : p - ⌊q⌋ ≤ q - ⌊q⌋ := by linarith
    unfold roundEven
    rw [heq]
    split_ifs <;> first | omega | linarith

@[simp] theorem roundEven_intCast (n : ℤ) : roundEven n = n := by simp [roundEven]

/-! ## To the nearest double -/

/-- The exponent of the last bit that a double of the size of `q` has. -/
def exponent (q : ℚ) : ℤ := max (Int.log 2 q - 52) (-1074)

/-- `round` on what is not negative. -/
def magnitude (q : ℚ) : ℚ := roundEven (q / 2 ^ exponent q) * 2 ^ exponent q

/-- The nearest double, were there no largest one. -/
def round (q : ℚ) : ℚ := if q < 0 then - magnitude (-q) else magnitude q

theorem exponent_mono {p q : ℚ} (hp : 0 < p) (h : p ≤ q) : exponent p ≤ exponent q :=
  max_le_max (Int.sub_le_sub_right (Int.log_mono_right hp h) 52) le_rfl

/-- What is scaled has 53 bits at most … -/
theorem scaled_lt (q : ℚ) : q / 2 ^ exponent q < 2 ^ 53 := by
  have hlog : Int.log 2 q + 1 ≤ 53 + exponent q := by
    unfold exponent
    omega
  rw [div_lt_iff₀ (by positivity)]
  calc q < 2 ^ (Int.log 2 q + 1) := by exact_mod_cast Int.lt_zpow_succ_log_self one_lt_two q
    _ ≤ 2 ^ (53 + exponent q) := zpow_le_zpow_right₀ one_le_two hlog
    _ = 2 ^ 53 * 2 ^ exponent q := by rw [zpow_add₀ two_ne_zero]; norm_num

/-- … and not fewer, above the smallest exponent. -/
theorem le_scaled {q : ℚ} (hq : 0 < q) (he : -1074 < exponent q) :
    2 ^ 52 ≤ q / 2 ^ exponent q := by
  have hlog : 52 + exponent q = Int.log 2 q := by
    unfold exponent at he ⊢
    omega
  rw [le_div_iff₀ (by positivity)]
  calc (2 ^ 52 * 2 ^ exponent q : ℚ) = 2 ^ (52 + exponent q) := by
        rw [zpow_add₀ two_ne_zero]; norm_num
    _ = 2 ^ Int.log 2 q := by rw [hlog]
    _ ≤ q := by exact_mod_cast Int.zpow_log_le_self one_lt_two hq

theorem roundEven_scaled_le (q : ℚ) : roundEven (q / 2 ^ exponent q) ≤ 2 ^ 53 := by
  have := roundEven_mono (scaled_lt q).le
  rwa [show ((2 : ℚ) ^ 53) = ((2 ^ 53 : ℤ) : ℚ) by norm_num, roundEven_intCast] at this

theorem magnitude_nonneg {q : ℚ} (hq : 0 ≤ q) : 0 ≤ magnitude q := by
  have h := roundEven_mono (show ((0 : ℤ) : ℚ) ≤ q / 2 ^ exponent q by push_cast; positivity)
  rw [roundEven_intCast] at h
  have h : (0 : ℚ) ≤ roundEven (q / 2 ^ exponent q) := by exact_mod_cast h
  unfold magnitude
  positivity

@[simp] theorem magnitude_zero : magnitude 0 = 0 := by
  have h := roundEven_intCast 0
  push_cast at h
  simp [magnitude, h]

/-- The order is kept: with one exponent by `roundEven_mono`, and of two exponents the smaller one
    gives `2 ^ 53` of its units at most, which is `2 ^ 52` units of the next. -/
theorem magnitude_mono {p q : ℚ} (hp : 0 ≤ p) (h : p ≤ q) : magnitude p ≤ magnitude q := by
  rcases hp.eq_or_lt with rfl | hp
  · rw [magnitude_zero]
    exact magnitude_nonneg h
  rcases (exponent_mono hp h).eq_or_lt with heq | hlt
  · unfold magnitude
    rw [heq]
    refine mul_le_mul_of_nonneg_right ?_ (by positivity)
    exact_mod_cast roundEven_mono (div_le_div_of_nonneg_right h (by positivity))
  · have hlow : (roundEven (p / 2 ^ exponent p) : ℚ) ≤ 2 ^ 53 := by
      exact_mod_cast roundEven_scaled_le p
    have hbits : ((2 ^ 52 : ℤ) : ℚ) ≤ q / 2 ^ exponent q := by
      have he : -1074 < exponent q := lt_of_le_of_lt (le_max_right _ _) hlt
      push_cast
      exact le_scaled (hp.trans_le h) he
    have hhigh : (2 ^ 52 : ℚ) ≤ roundEven (q / 2 ^ exponent q) := by
      have := roundEven_mono hbits
      rw [roundEven_intCast] at this
      exact_mod_cast this
    calc magnitude p ≤ 2 ^ 53 * 2 ^ exponent p := mul_le_mul_of_nonneg_right hlow (by positivity)
      _ = 2 ^ 52 * 2 ^ (exponent p + 1) := by rw [zpow_add₀ two_ne_zero]; ring
      _ ≤ 2 ^ 52 * 2 ^ exponent q :=
        mul_le_mul_of_nonneg_left (zpow_le_zpow_right₀ one_le_two hlt) (by positivity)
      _ ≤ magnitude q := mul_le_mul_of_nonneg_right hhigh (by positivity)

theorem round_neg (q : ℚ) : round (-q) = - round q := by
  unfold round
  rcases lt_trichotomy q 0 with h | rfl | h
  · rw [if_pos h, if_neg (by linarith), neg_neg]
  · simp
  · rw [if_pos (by linarith), if_neg (by linarith), neg_neg]

theorem round_of_nonneg {q : ℚ} (hq : 0 ≤ q) : round q = magnitude q := if_neg (not_lt.mpr hq)

/-- **Rounding keeps the order.** -/
theorem round_mono {p q : ℚ} (h : p ≤ q) : round p ≤ round q := by
  rcases lt_or_ge p 0 with hp | hp
  · rcases lt_or_ge q 0 with hq | hq
    · unfold round
      rw [if_pos hp, if_pos hq]
      exact neg_le_neg (magnitude_mono (by linarith) (neg_le_neg h))
    · calc round p ≤ 0 := by
            unfold round
            rw [if_pos hp]
            exact neg_nonpos.mpr (magnitude_nonneg (by linarith))
        _ ≤ magnitude q := magnitude_nonneg hq
        _ = round q := (round_of_nonneg hq).symm
  · rw [round_of_nonneg hp, round_of_nonneg (hp.trans h)]
    exact magnitude_mono hp h

/-! ## What rounding leaves alone -/

/-- A number of 53 bits, counted in the last of them. -/
theorem magnitude_eq_self {m e : ℤ} (hm : 0 ≤ m) (hlt : m < 2 ^ 53) (he : -1074 ≤ e) :
    magnitude (m * 2 ^ e) = m * 2 ^ e := by
  rcases hm.eq_or_lt with rfl | hm
  · simp
  have hm' : (0 : ℚ) < m := by exact_mod_cast hm
  have hle : exponent (m * 2 ^ e) ≤ e := by
    have hlog : Int.log 2 ((m : ℚ) * 2 ^ e) < 53 + e := by
      refine (Int.lt_zpow_iff_log_lt one_lt_two (by positivity)).mp ?_
      push_cast
      rw [zpow_add₀ two_ne_zero]
      refine mul_lt_mul_of_pos_right ?_ (by positivity)
      exact_mod_cast hlt
    unfold exponent
    omega
  -- so it is a whole number of the units it is rounded to
  obtain ⟨k, hk⟩ := Int.le.dest hle
  have hunits : (m * 2 ^ e : ℚ) / 2 ^ exponent (m * 2 ^ e) = ((m * 2 ^ k : ℤ) : ℚ) := by
    rw [div_eq_iff (by positivity)]
    push_cast
    rw [mul_assoc, ← zpow_natCast, ← zpow_add₀ two_ne_zero]
    congr 2
    omega
  unfold magnitude
  rw [hunits, roundEven_intCast, ← hunits]
  exact div_mul_cancel₀ _ (by positivity)

theorem magnitude_magnitude {q : ℚ} (hq : 0 ≤ q) : magnitude (magnitude q) = magnitude q := by
  have hnonneg : 0 ≤ roundEven (q / 2 ^ exponent q) := by
    have h := roundEven_mono (show ((0 : ℤ) : ℚ) ≤ q / 2 ^ exponent q by push_cast; positivity)
    rwa [roundEven_intCast] at h
  have he : -1074 ≤ exponent q := le_max_right _ _
  rcases (roundEven_scaled_le q).lt_or_eq with hlt | heq
  · exact magnitude_eq_self hnonneg hlt he
  · -- a carry into the next bit
    have hcarry : magnitude q = ((2 ^ 52 : ℤ) : ℚ) * 2 ^ (exponent q + 1) := by
      unfold magnitude
      rw [heq, zpow_add₀ two_ne_zero]
      push_cast
      ring
    rw [hcarry]
    exact magnitude_eq_self (by norm_num) (by norm_num) (by omega)

/-- **What is rounded stays as it is.** -/
theorem round_round (q : ℚ) : round (round q) = round q := by
  rcases le_total 0 q with h | h
  · rw [round_of_nonneg h, round_of_nonneg (magnitude_nonneg h), magnitude_magnitude h]
  · obtain ⟨p, rfl⟩ : ∃ p, q = -p := ⟨-q, (neg_neg q).symm⟩
    have hp : 0 ≤ p := by linarith
    rw [round_neg, round_neg, round_of_nonneg hp, round_of_nonneg (magnitude_nonneg hp),
      magnitude_magnitude hp]

/-- An integer of 53 bits is a double. -/
theorem round_intCast {n : ℤ} (h : |n| < 2 ^ 53) : round n = n := by
  have hnonneg : ∀ m : ℤ, 0 ≤ m → m < 2 ^ 53 → round m = m := by
    intro m hm hlt
    rw [round_of_nonneg (by exact_mod_cast hm)]
    simpa using magnitude_eq_self hm hlt (show (-1074 : ℤ) ≤ 0 by norm_num)
  obtain ⟨hlow, hhigh⟩ := abs_lt.mp h
  rcases le_total 0 n with hn | hn
  · exact hnonneg n hn hhigh
  · have := hnonneg (-n) (by omega) (by omega)
    push_cast at this
    rw [round_neg] at this
    linarith

/-- A double counts in units of `2 ^ -1074`. -/
theorem round_units (q : ℚ) : ∃ n : ℤ, round q * 2 ^ 1074 = n := by
  have hmag : ∀ p : ℚ, ∃ n : ℤ, magnitude p * 2 ^ 1074 = n := by
    intro p
    obtain ⟨k, hk⟩ := Int.le.dest (show (-1074 : ℤ) ≤ exponent p from le_max_right _ _)
    refine ⟨roundEven (p / 2 ^ exponent p) * 2 ^ k, ?_⟩
    unfold magnitude
    push_cast
    rw [mul_assoc, ← zpow_natCast 2 1074, ← zpow_natCast (2 : ℚ) k, ← zpow_add₀ two_ne_zero]
    congr 2
    push_cast
    omega
  unfold round
  split_ifs
  · obtain ⟨n, hn⟩ := hmag (-q)
    exact ⟨-n, by rw [neg_mul, hn, Int.cast_neg]⟩
  · exact hmag q

/-! ## Doubles -/

/-- A number that rounding leaves alone and that does not overflow. -/
def IsFinite (q : ℚ) : Prop := round q = q ∧ |q| < 2 ^ 1024

instance (q : ℚ) : Decidable (IsFinite q) := inferInstanceAs (Decidable (_ ∧ _))

/-- The finite doubles. -/
abbrev Finite := { q : ℚ // IsFinite q }

/-- They, between the two infinities. -/
abbrev Extended := WithBot (WithTop Finite)

/-- A finite double among them. -/
@[match_pattern] abbrev Extended.fin (x : Finite) : Extended := ((x : WithTop Finite) : Extended)

/-- A double. -/
inductive Double
  | nan
  | num (x : Extended)
deriving DecidableEq

/-- The nearest double, one of the infinities when the number is too big. -/
def ofRat (q : ℚ) : Extended :=
  if h : |round q| < 2 ^ 1024 then .fin ⟨round q, round_round q, h⟩
  else if 0 < round q then ⊤ else ⊥

theorem ofRat_of_isFinite {q : ℚ} (h : IsFinite q) : ofRat q = .fin ⟨q, h⟩ := by
  unfold ofRat
  rw [dif_pos (by rw [h.1]; exact h.2)]
  congr 3
  exact h.1

theorem compare_fin (x y : Finite) : compare (Extended.fin x) (Extended.fin y) = compare x.1 y.1 := by
  rcases lt_trichotomy x.1 y.1 with h | h | h
  · rw [compare_lt_iff_lt.mpr h, compare_lt_iff_lt.mpr]
    exact WithBot.coe_lt_coe.mpr (WithTop.coe_lt_coe.mpr h)
  · rw [compare_eq_iff_eq.mpr h, compare_eq_iff_eq.mpr]
    rw [Subtype.ext h]
  · rw [compare_gt_iff_gt.mpr h, compare_gt_iff_gt.mpr]
    exact WithBot.coe_lt_coe.mpr (WithTop.coe_lt_coe.mpr h)

theorem isFinite_intCast {n : ℤ} (h : |n| < 2 ^ 53) : IsFinite n := by
  refine ⟨round_intCast h, ?_⟩
  calc |(n : ℚ)| < 2 ^ 53 := by exact_mod_cast h
    _ ≤ 2 ^ 1024 := pow_le_pow_right₀ one_le_two (by norm_num)

namespace Double

/-- `-x`. -/
def neg : Double → Double
  | .nan => .nan
  | .num ⊥ => .num ⊤
  | .num ⊤ => .num ⊥
  | .num (.fin x) => .num (.fin ⟨-x, by rw [round_neg, x.2.1], by rw [abs_neg]; exact x.2.2⟩)

/-- `x + y`: the two infinities have no sum. -/
def add : Double → Double → Double
  | .nan, _ => .nan
  | _, .nan => .nan
  | .num ⊥, .num y => if y = ⊤ then .nan else .num ⊥
  | .num ⊤, .num y => if y = ⊥ then .nan else .num ⊤
  | .num (.fin _), .num ⊥ => .num ⊥
  | .num (.fin _), .num ⊤ => .num ⊤
  | .num (.fin x), .num (.fin y) => .num (ofRat (x + y))

instance : Neg Double := ⟨neg⟩
instance : Add Double := ⟨add⟩
instance : Sub Double := ⟨fun x y => x + -y⟩

/-- `x ≤ y`. -/
def le : Double → Double → Prop
  | .num x, .num y => x ≤ y
  | _, _ => False

/-- `x < y`. -/
def lt : Double → Double → Prop
  | .num x, .num y => x < y
  | _, _ => False

instance : LE Double := ⟨le⟩
instance : LT Double := ⟨lt⟩

instance : DecidableLE Double := fun x y =>
  match x, y with
  | .num x, .num y => inferInstanceAs (Decidable (x ≤ y))
  | .nan, _ => isFalse id
  | .num _, .nan => isFalse id

instance : DecidableLT Double := fun x y =>
  match x, y with
  | .num x, .num y => inferInstanceAs (Decidable (x < y))
  | .nan, _ => isFalse id
  | .num _, .nan => isFalse id

@[simp] theorem num_le_num {x y : Extended} : num x ≤ num y ↔ x ≤ y := Iff.rfl

@[simp] theorem num_lt_num {x y : Extended} : num x < num y ↔ x < y := Iff.rfl

@[simp] theorem not_nan_le (y : Double) : ¬ nan ≤ y := id

@[simp] theorem not_le_nan (x : Double) : ¬ x ≤ nan := by cases x <;> exact id

@[simp] theorem not_lt_nan (x : Double) : ¬ x < nan := by cases x <;> exact id

variable {x y z : Double}

/-- What is compared is a number. -/
theorem le_cases (h : x ≤ y) : ∃ a b : Extended, x = num a ∧ y = num b ∧ a ≤ b := by
  cases x with
  | nan => exact absurd h (not_nan_le y)
  | num a =>
    cases y with
    | nan => exact absurd h (not_le_nan _)
    | num b => exact ⟨a, b, rfl, rfl, h⟩

theorem lt_cases (h : x < y) : ∃ a b : Extended, x = num a ∧ y = num b ∧ a < b := by
  cases x with
  | nan => exact h.elim
  | num a =>
    cases y with
    | nan => exact absurd h (not_lt_nan _)
    | num b => exact ⟨a, b, rfl, rfl, h⟩

theorem le_of_lt (h : x < y) : x ≤ y := by
  obtain ⟨a, b, rfl, rfl, hlt⟩ := lt_cases h
  exact hlt.le

theorem lt_of_le_of_lt (h : x ≤ y) (h' : y < z) : x < z := by
  obtain ⟨a, b, rfl, rfl, hle⟩ := le_cases h
  obtain ⟨b', c, hb, rfl, hlt⟩ := lt_cases h'
  obtain rfl := num.inj hb
  exact hle.trans_lt hlt

theorem lt_of_lt_of_le (h : x < y) (h' : y ≤ z) : x < z := by
  obtain ⟨a, b, rfl, rfl, hlt⟩ := lt_cases h
  obtain ⟨b', c, hb, rfl, hle⟩ := le_cases h'
  obtain rfl := num.inj hb
  exact hlt.trans_le hle

theorem le_trans (h : x ≤ y) (h' : y ≤ z) : x ≤ z := by
  obtain ⟨a, b, rfl, rfl, hle⟩ := le_cases h
  obtain ⟨b', c, hb, rfl, hle'⟩ := le_cases h'
  obtain rfl := num.inj hb
  exact LE.le.trans hle hle'

theorem le_self_left (h : x ≤ y) : x ≤ x := by
  obtain ⟨a, b, rfl, rfl, -⟩ := le_cases h
  exact le_refl a

theorem le_self_right (h : x ≤ y) : y ≤ y := by
  obtain ⟨a, b, rfl, rfl, -⟩ := le_cases h
  exact le_refl b

theorem eq_of_le_of_not_lt (h : x ≤ y) (h' : ¬ x < y) : x = y := by
  obtain ⟨a, b, rfl, rfl, hle⟩ := le_cases h
  rw [le_antisymm hle (not_lt.mp h')]

end Double

/-! ## Adding a finite double -/

/-- `x + y` for a finite `y`. -/
def plus (y : Finite) : Extended → Extended
  | ⊥ => ⊥
  | ⊤ => ⊤
  | .fin x => ofRat (x + y)

theorem add_finite (x : Extended) (y : Finite) : Double.num x + .num (.fin y) = .num (plus y x) := by
  match x with
  | ⊥ => rfl
  | ⊤ => rfl
  | .fin x => rfl

theorem ofRat_mono {p q : ℚ} (h : p ≤ q) : ofRat p ≤ ofRat q := by
  have hround := round_mono h
  unfold ofRat
  by_cases hp : |round p| < 2 ^ 1024
  · by_cases hq : |round q| < 2 ^ 1024
    · rw [dif_pos hp, dif_pos hq]
      exact WithBot.coe_le_coe.mpr (WithTop.coe_le_coe.mpr hround)
    · -- too big on the upper side
      have hpos : 0 < round q := by
        by_contra hneg
        have hneg := not_lt.mp hneg
        refine hq (lt_of_le_of_lt ?_ hp)
        rw [abs_of_nonpos hneg, abs_of_nonpos (hround.trans hneg)]
        exact neg_le_neg hround
      rw [dif_neg hq, if_pos hpos]
      show _ ≤ (⊤ : Extended)
      exact le_top
  · rw [dif_neg hp]
    split_ifs with hpos hq hpos'
    · rw [abs_of_pos hpos] at hp
      rw [abs_of_pos (hpos.trans_le hround)] at hq
      exact absurd (hround.trans_lt hq) hp
    · exact le_rfl
    · exact absurd (hpos.trans_le hround) hpos'
    · exact bot_le
    · exact bot_le
    · exact bot_le

theorem ofRat_finite (x : Finite) : ofRat x = .fin x := by
  obtain ⟨q, hround, hlt⟩ := x
  unfold ofRat
  rw [dif_pos (by rwa [hround])]
  simp only [hround]

/-- **Adding keeps the order.** -/
theorem plus_mono (y : Finite) : Monotone (plus y) := by
  intro x x' h
  match x, x', h with
  | ⊥, x', _ => exact bot_le
  | x, ⊤, _ => exact le_top
  | .fin x, .fin x', h =>
    have h : x ≤ x' := WithTop.coe_le_coe.mp (WithBot.coe_le_coe.mp h)
    exact ofRat_mono (add_le_add (show (x : ℚ) ≤ x' from h) le_rfl)

/-- A double that the exact sum reaches, the rounded one reaches. -/
theorem le_plus {x y z : Finite} (h : (z : ℚ) ≤ x + y) : Extended.fin z ≤ plus y (.fin x) := by
  rw [← ofRat_finite z]
  exact ofRat_mono h

/-! ## How many there are -/

/-- The place of a finite double among the multiples of `2 ^ -1074`. -/
def units (x : Finite) : ℤ := ⌊(x : ℚ) * 2 ^ 1074⌋

/-- Between two of them there are finitely many. -/
theorem units_lt {x y : Finite} (h : x < y) : units x < units y := by
  have hexact : ∀ z : Finite, (units z : ℚ) = z * 2 ^ 1074 := by
    intro z
    obtain ⟨n, hn⟩ := round_units z
    rw [z.2.1] at hn
    unfold units
    rw [hn, Int.floor_intCast]
  have hlt : (x : ℚ) < y := h
  have : (units x : ℚ) < units y := by
    rw [hexact, hexact]
    exact mul_lt_mul_of_pos_right hlt (by positivity)
  exact_mod_cast this

end RubyQueue.Binary64
