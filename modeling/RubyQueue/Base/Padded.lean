/-
  Numbers written with a fixed number of digits, and their order as text.

  Texts of one length compare field by field (`append_lt_append_iff`), and a field of `w` digits
  compares as the number it shows (`pad_lt_iff`).  So a text made of such fields in order of
  significance sorts as the tuple of its numbers: the reason a time stamp may be compared as text,
  as long as EVERY field is padded on the left.  `toDigits_append_zeros` says what number a field
  shows that was padded on the right.
-/
import Mathlib.Algebra.Order.Ring.Nat

namespace RubyQueue.Padded

/-! ## Texts of one length -/

/-- Lists of one length in front decide first.  Induction on the two of them. -/
theorem append_lt_append_iff {α : Type} [LT α] : ∀ {a b s t : List α},
    a.length = b.length → (a ++ s < b ++ t ↔ a < b ∨ (a = b ∧ s < t))
  | [], [], s, t, _ => by simp
  | [], _ :: _, _, _, h => by cases h
  | _ :: _, [], _, _, h => by cases h
  | x :: a, y :: b, s, t, h => by
    have ih := append_lt_append_iff (s := s) (t := t) (Nat.succ.inj h)
    rw [List.cons_append, List.cons_append, List.cons_lt_cons_iff, List.cons_lt_cons_iff, ih,
      List.cons.injEq]
    constructor
    · rintro (hxy | ⟨rfl, hab | ⟨rfl, hst⟩⟩)
      · exact Or.inl (Or.inl hxy)
      · exact Or.inl (Or.inr ⟨rfl, hab⟩)
      · exact Or.inr ⟨⟨rfl, rfl⟩, hst⟩
    · rintro ((hxy | ⟨rfl, hab⟩) | ⟨⟨rfl, rfl⟩, hst⟩)
      · exact Or.inl hxy
      · exact Or.inr ⟨rfl, Or.inl hab⟩
      · exact Or.inr ⟨rfl, Or.inr ⟨rfl, hst⟩⟩

/-! ## Padding on the left -/

/-- `n` in `w` digits. -/
def pad : Nat → Nat → List Char
  | 0, _ => []
  | w + 1, n => pad w (n / 10) ++ [Nat.digitChar (n % 10)]

@[simp] theorem length_pad : ∀ w n : Nat, (pad w n).length = w
  | 0, _ => rfl
  | w + 1, n => by rw [pad, List.length_append, length_pad w]; rfl

theorem digitChar_lt_iff {m n : Nat} (hm : m < 10) (hn : n < 10) :
    Nat.digitChar m < Nat.digitChar n ↔ m < n := by
  have key : ∀ i j : Fin 10, Nat.digitChar i < Nat.digitChar j ↔ i < j := by decide
  exact key ⟨m, hm⟩ ⟨n, hn⟩

theorem digitChar_inj {m n : Nat} (hm : m < 10) (hn : n < 10)
    (h : Nat.digitChar m = Nat.digitChar n) : m = n := by
  have key : ∀ i j : Fin 10, Nat.digitChar i = Nat.digitChar j → i = j := by decide
  exact congrArg Fin.val (key ⟨m, hm⟩ ⟨n, hn⟩ h)

theorem pad_inj : ∀ {w m n : Nat}, m < 10 ^ w → n < 10 ^ w → pad w m = pad w n → m = n
  | 0, m, n, hm, hn, _ => by simp at hm hn; omega
  | w + 1, m, n, hm, hn, h => by
    rw [Nat.pow_succ] at hm hn
    obtain ⟨hhigh, hlow⟩ := List.append_inj h (by simp)
    have hdiv := pad_inj (by omega) (by omega) hhigh
    have hmod := digitChar_inj (Nat.mod_lt m (by decide)) (Nat.mod_lt n (by decide))
      (List.singleton_inj.mp hlow)
    omega

/-- **Padded numbers sort as numbers.**  Induction on the width. -/
theorem pad_lt_iff : ∀ {w m n : Nat}, m < 10 ^ w → n < 10 ^ w → (pad w m < pad w n ↔ m < n)
  | 0, m, n, hm, hn => by
    simp only [Nat.pow_zero, Nat.lt_one_iff] at hm hn
    subst hm hn
    simp [pad]
  | w + 1, m, n, hm, hn => by
    rw [Nat.pow_succ] at hm hn
    have hm' : m / 10 < 10 ^ w := by omega
    have hn' : n / 10 < 10 ^ w := by omega
    have hlast : ([Nat.digitChar (m % 10)] < [Nat.digitChar (n % 10)]) ↔ m % 10 < n % 10 := by
      rw [List.cons_lt_cons_iff,
        digitChar_lt_iff (Nat.mod_lt m (by decide)) (Nat.mod_lt n (by decide))]
      simp
    rw [pad, pad, append_lt_append_iff (by simp), pad_lt_iff hm' hn', hlast]
    constructor
    · rintro (h | ⟨heq, h⟩)
      · omega
      · have := pad_inj hm' hn' heq
        omega
    · intro h
      by_cases hdiv : m / 10 = n / 10
      · exact Or.inr ⟨by rw [hdiv], by omega⟩
      · exact Or.inl (by omega)

/-- A field in front of more text. -/
theorem pad_append_lt_iff {w m n : Nat} {s t : List Char} (hm : m < 10 ^ w) (hn : n < 10 ^ w) :
    pad w m ++ s < pad w n ++ t ↔ m < n ∨ (m = n ∧ s < t) := by
  rw [append_lt_append_iff (by simp), pad_lt_iff hm hn]
  constructor
  · rintro (h | ⟨heq, h⟩)
    · exact Or.inl h
    · exact Or.inr ⟨pad_inj hm hn heq, h⟩
  · rintro (h | ⟨rfl, h⟩)
    · exact Or.inl h
    · exact Or.inr ⟨rfl, h⟩

/-! ## Numbers as they are printed -/

/-- A number printed plainly is padded to its own width. -/
theorem toDigits_eq_pad : ∀ n : Nat, Nat.toDigits 10 n = pad (Nat.toDigits 10 n).length n := by
  intro n
  induction n using Nat.strongRecOn with
  | ind n ih =>
    by_cases hn : n < 10
    · rw [Nat.toDigits_of_lt_base hn]
      simp [pad, Nat.mod_eq_of_lt hn]
    · rw [Nat.toDigits_of_base_le (by decide) (by omega), List.length_append]
      have hdiv := ih (n / 10) (by omega)
      show _ = pad ((Nat.toDigits 10 (n / 10)).length + 1) n
      rw [pad, ← hdiv]

theorem lt_pow_length_toDigits (n : Nat) : n < 10 ^ (Nat.toDigits 10 n).length :=
  (Nat.length_toDigits_le_iff (by decide) Nat.length_toDigits_pos).mp (Nat.le_refl _)

/-- **Zeros on the right** multiply: they make a field of `k + j` digits that shows `n · 10 ^ j`. -/
theorem pad_append_zeros (k n : Nat) : ∀ j : Nat,
    pad k n ++ List.replicate j '0' = pad (k + j) (n * 10 ^ j)
  | 0 => by simp
  | j + 1 => by
    have hdiv : n * 10 ^ (j + 1) / 10 = n * 10 ^ j := by
      rw [Nat.pow_succ, ← Nat.mul_assoc, Nat.mul_div_cancel _ (by decide)]
    have hmod : n * 10 ^ (j + 1) % 10 = 0 := by
      rw [Nat.pow_succ, ← Nat.mul_assoc, Nat.mul_mod_left]
    rw [List.replicate_succ', ← List.append_assoc, pad_append_zeros k n j, ← Nat.add_assoc, pad,
      hdiv, hmod]
    rfl

end RubyQueue.Padded
