/-
  The parts of SQLite 2.8 the queue's statements rest on (`ext/sqlite-2.8.17/src/util.c`).

  Every column of `jobs` but the key is typeless, so `=`, `!=`, `<=` and `order by` all go through
  `sqliteCompare`: two texts that both look like numbers compare as numbers, a number is below any
  other text, and two other texts compare by `strcmp`.  A NULL operand makes the comparison NULL,
  and a `where` clause that is NULL selects nothing.

  `sqliteAtoF` is the exact decimal value of the numeral; the C code rounds it to a double, so it takes
  two numerals for equal whenever they are the `SameNumber`.  What compares numerals says where the
  difference does not matter.
-/
import Mathlib.Algebra.Order.Field.Power
import Mathlib.Algebra.Order.Ring.Int
import Mathlib.Data.List.Infix
import Mathlib.Data.List.TakeWhile
import Mathlib.Data.Rat.Cast.Order
import Mathlib.Data.String.Basic
import RubyQueue.Base.Binary64

namespace RubyQueue.Sqlite

/-! ## Numerals -/

/-- Drop one leading sign. -/
def dropSign : List Char → List Char
  | '-' :: z => z
  | '+' :: z => z
  | z => z

/-- The tail of `sqliteIsNumber` from a possible exponent on. -/
def isNumberExponent : List Char → Bool
  | [] => true
  | c :: z =>
    (c == 'e' || c == 'E') &&
      match dropSign z with
      | [] => false
      | d :: z => d.isDigit && (z.dropWhile Char.isDigit).isEmpty

/-- The tail of `sqliteIsNumber` from a possible decimal point on. -/
def isNumberFraction : List Char → Bool
  | '.' :: d :: z => d.isDigit && isNumberExponent (z.dropWhile Char.isDigit)
  | '.' :: [] => false
  | z => isNumberExponent z

/-- `sqliteIsNumber`: sign, digits, optional fraction, optional exponent, and nothing else. -/
def sqliteIsNumber (s : String) : Bool :=
  match dropSign s.toList with
  | [] => false
  | d :: z => d.isDigit && isNumberFraction (z.dropWhile Char.isDigit)

/-- `v1 = v1*10.0 + (*z - '0')` over a run of digits. -/
def digitsValue (ds : List Char) : Nat :=
  ds.foldl (fun v c => v * 10 + (c.toNat - '0'.toNat)) 0

/-- A number is written in digits. -/
theorem isDigit_of_mem_toString {n : Nat} {c : Char} (h : c ∈ (toString n).toList) :
    c.isDigit = true := by
  have htext : (toString n).toList = Nat.toDigits 10 n := by simp
  rw [htext] at h
  exact Nat.isDigit_of_mem_toDigits (by decide) (by decide) h

theorem not_mem_toString {c : Char} (hc : c.isDigit = false) (n : Nat) :
    c ∉ (toString n).toList := by
  intro h
  rw [isDigit_of_mem_toString h] at hc
  cases hc

/-- A path of a job is a directory, a slash and digits. -/
theorem not_mem_path {c : Char} (hc : c.isDigit = false) {dir : String} (hdir : c ∉ dir.toList)
    (jid : Nat) : c ∉ (dir ++ toString jid).toList := by
  rw [String.toList_append, List.mem_append]
  rintro (h | h)
  · exact hdir h
  · exact not_mem_toString hc jid h

theorem digitsValue_eq (ds : List Char) : digitsValue ds = Nat.ofDigitChars 10 ds 0 := by
  rw [Nat.ofDigitChars_eq_foldl]
  unfold digitsValue
  congr 1
  funext v c
  rw [Nat.mul_comm]

/-- It is the value of what is written. -/
theorem digitsValue_toString (n : Nat) : digitsValue (toString n).toList = n := by
  have htext : (toString n).toList = Nat.toDigits 10 n := by simp
  rw [digitsValue_eq, htext]
  simp

/-- Two numbers that are written alike are the same. -/
theorem toString_inj {m n : Nat} : toString m = toString n ↔ m = n := by
  constructor
  · intro h
    rw [← digitsValue_toString m, h, digitsValue_toString n]
  · rintro rfl
    rfl

/-- The exponent of a numeral, `0` when there is none. -/
def exponentValue : List Char → Int
  | [] => 0
  | _ :: '-' :: z => - (digitsValue (z.takeWhile Char.isDigit) : Int)
  | _ :: '+' :: z => (digitsValue (z.takeWhile Char.isDigit) : Int)
  | _ :: z => (digitsValue (z.takeWhile Char.isDigit) : Int)

/-- The value `mantissa · 10 ^ scale` of a numeral. -/
structure Decimal where
  mantissa : Int
  scale : Int
deriving DecidableEq, Repr

/-- Compare two values at the smaller of their scales. -/
def Decimal.cmp (x y : Decimal) : Ordering :=
  let low := min x.scale y.scale
  compare (x.mantissa * 10 ^ (x.scale - low).toNat) (y.mantissa * 10 ^ (y.scale - low).toNat)

/-- `sqliteAtoF` of a text that `sqliteIsNumber` accepts. -/
def sqliteAtoF (s : String) : Decimal :=
  let z := dropSign s.toList
  let whole := z.takeWhile Char.isDigit
  let (frac, rest) := match z.dropWhile Char.isDigit with
    | '.' :: z => (z.takeWhile Char.isDigit, z.dropWhile Char.isDigit)
    | z => ([], z)
  let v : Int := digitsValue (whole ++ frac)
  { mantissa := if s.toList.head? = some '-' then -v else v
    scale := exponentValue rest - frac.length }

/-! ## Comparison -/

/-- `sqliteCompare`. -/
def sqliteCompare (a b : String) : Ordering :=
  match sqliteIsNumber a, sqliteIsNumber b with
  | true, true => (sqliteAtoF a).cmp (sqliteAtoF b)
  | true, false => .lt
  | false, true => .gt
  | false, false => compare a b

/-- `column = 'lit'` as a `where` clause reads it. -/
def eqLit (col : Option String) (lit : String) : Bool :=
  match col with
  | none => false
  | some s => sqliteCompare s lit == .eq

/-- `column != 'lit'`. -/
def neLit (col : Option String) (lit : String) : Bool :=
  match col with
  | none => false
  | some s => sqliteCompare s lit != .eq

/-- `column <= 'lit'`. -/
def leLit (col : Option String) (lit : String) : Bool :=
  match col with
  | none => false
  | some s => sqliteCompare s lit != .gt

/-- The order of one `order by` term, ascending: NULL first, then `sqliteCompare`
    (`sqliteSortCompare`). -/
def sortCompare : Option String → Option String → Ordering
  | none, none => .eq
  | none, some _ => .lt
  | some _, none => .gt
  | some a, some b => sqliteCompare a b

/-- A text that is no numeral equals only itself. -/
theorem sqliteCompare_eq_iff {a b : String} (hb : sqliteIsNumber b = false) :
    sqliteCompare a b = .eq ↔ a = b := by
  unfold sqliteCompare
  rw [hb]
  cases ha : sqliteIsNumber a with
  | true =>
    simp only [reduceCtorEq, false_iff]
    rintro rfl
    rw [ha] at hb
    cases hb
  | false => simp

theorem eqLit_iff {col : Option String} {lit : String} (h : sqliteIsNumber lit = false) :
    eqLit col lit = true ↔ col = some lit := by
  cases col with
  | none => simp [eqLit]
  | some s => simp [eqLit, sqliteCompare_eq_iff h]

theorem neLit_iff {col : Option String} {lit : String} (h : sqliteIsNumber lit = false) :
    neLit col lit = true ↔ col ≠ none ∧ col ≠ some lit := by
  cases col with
  | none => simp [neLit]
  | some s => simp [neLit, sqliteCompare_eq_iff h]

/-! ## Numbers -/

/-- The number a decimal stands for. -/
def value (d : Decimal) : ℚ := d.mantissa * 10 ^ d.scale

theorem value_eq_pow {d : Decimal} {low : Int} (h : low ≤ d.scale) :
    value d = (d.mantissa * 10 ^ (d.scale - low).toNat : Int) * 10 ^ low := by
  have hscale : d.scale = ((d.scale - low).toNat : Int) + low := by omega
  unfold value
  conv_lhs => rw [hscale, zpow_add₀ (by norm_num), zpow_natCast]
  push_cast
  ring

/-- `Decimal.cmp` compares the numbers. -/
theorem cmp_eq_compare (x y : Decimal) : x.cmp y = compare (value x) (value y) := by
  have hpow : (0 : ℚ) < 10 ^ min x.scale y.scale := zpow_pos (by norm_num) _
  rw [value_eq_pow (min_le_left x.scale y.scale), value_eq_pow (min_le_right x.scale y.scale)]
  unfold Decimal.cmp
  rcases lt_trichotomy (x.mantissa * 10 ^ (x.scale - min x.scale y.scale).toNat)
    (y.mantissa * 10 ^ (y.scale - min x.scale y.scale).toNat) with h | h | h
  · rw [compare_lt_iff_lt.mpr h, compare_lt_iff_lt.mpr]
    exact mul_lt_mul_of_pos_right (by exact_mod_cast h) hpow
  · rw [compare_eq_iff_eq.mpr h, h, compare_eq_iff_eq.mpr rfl]
  · rw [compare_gt_iff_gt.mpr h, compare_gt_iff_gt.mpr]
    exact mul_lt_mul_of_pos_right (by exact_mod_cast h) hpow

theorem cmp_eq_iff (x y : Decimal) : x.cmp y = .eq ↔ value x = value y := by
  rw [cmp_eq_compare, compare_eq_iff_eq]

/-- The double the C code makes of a numeral. -/
def toDouble (s : String) : Binary64.Extended := Binary64.ofRat (value (sqliteAtoF s))

/-- Numerals of one double. -/
def SameNumber (a b : String) : Prop :=
  sqliteIsNumber a = true ∧ sqliteIsNumber b = true ∧ toDouble a = toDouble b

instance (a b : String) : Decidable (SameNumber a b) := inferInstanceAs (Decidable (_ ∧ _ ∧ _))

@[simp] theorem eqLit_self (s : String) : eqLit (some s) s = true := by
  show (sqliteCompare s s == .eq) = true
  unfold sqliteCompare
  split <;> simp_all [cmp_eq_iff]

/-- A column equals itself, and numerals of one number. -/
theorem eqLit_cases {a b : String} (h : eqLit (some a) b = true) : a = b ∨ SameNumber a b := by
  cases hb : sqliteIsNumber b with
  | false => exact Or.inl (Option.some.inj ((eqLit_iff hb).mp h))
  | true =>
    cases ha : sqliteIsNumber a with
    | false => simp [eqLit, sqliteCompare, ha, hb] at h
    | true =>
      have hcmp : (sqliteAtoF a).cmp (sqliteAtoF b) = .eq := by
        simpa [eqLit, sqliteCompare, ha, hb] using h
      exact Or.inr ⟨ha, hb, congrArg Binary64.ofRat ((cmp_eq_iff _ _).mp hcmp)⟩

/-- A double holds the number of the numeral as it is. -/
def Exact (s : String) : Prop := sqliteIsNumber s = true → Binary64.IsFinite (value (sqliteAtoF s))

/-- **Where the doubles do not matter.**  Numerals that doubles hold as they are compare as these. -/
theorem sqliteCompare_toDouble {a b : String} (ha : sqliteIsNumber a = true)
    (hb : sqliteIsNumber b = true) (hea : Exact a) (heb : Exact b) :
    sqliteCompare a b = compare (toDouble a) (toDouble b) := by
  unfold sqliteCompare toDouble
  rw [ha, hb, Binary64.ofRat_of_isFinite (hea ha), Binary64.ofRat_of_isFinite (heb hb)]
  show (sqliteAtoF a).cmp (sqliteAtoF b) = _
  rw [cmp_eq_compare, Binary64.compare_fin]

/-! ## Integers -/

/-- The value of an integer numeral: an optional sign, and digits. -/
def integerValue (s : String) : Option Int :=
  let z := dropSign s.toList
  if !z.isEmpty && z.all Char.isDigit then
    some (if s.toList.head? = some '-' then -(digitsValue z : Int) else digitsValue z)
  else none

theorem integerValue_digits {z : List Char} (h : (!z.isEmpty && z.all Char.isDigit) = true) :
    z ≠ [] ∧ ∀ c ∈ z, c.isDigit = true := by
  obtain ⟨hne, hall⟩ := Bool.and_eq_true_iff.mp h
  exact ⟨by simpa using hne, List.all_eq_true.mp hall⟩

theorem dropWhile_isDigit {z : List Char} (h : ∀ c ∈ z, c.isDigit = true) :
    z.dropWhile Char.isDigit = [] := by
  rw [List.dropWhile_eq_nil_iff]
  exact h

/-- SQLite reads an integer numeral as that integer. -/
theorem integerValue_some {s : String} {n : Int} (h : integerValue s = some n) :
    sqliteIsNumber s = true ∧ sqliteAtoF s = ⟨n, 0⟩ := by
  unfold integerValue at h
  dsimp only at h
  split at h
  swap
  · cases h
  rename_i hz
  obtain ⟨hne, hdigits⟩ := integerValue_digits hz
  have hdrop := dropWhile_isDigit hdigits
  have htake : (dropSign s.toList).takeWhile Char.isDigit = dropSign s.toList := by
    rw [List.takeWhile_eq_self_iff]
    exact hdigits
  constructor
  · unfold sqliteIsNumber
    cases hd : dropSign s.toList with
    | nil => exact absurd hd hne
    | cons d z =>
      rw [hd] at hdigits
      have hz := dropWhile_isDigit fun c hc => hdigits c (List.mem_cons_of_mem d hc)
      simp [hz, hdigits d List.mem_cons_self, isNumberFraction, isNumberExponent]
  · unfold sqliteAtoF
    simp only [hdrop, htake, List.append_nil, exponentValue, List.length_nil, Nat.cast_zero,
      sub_zero]
    rw [Option.some.inj h]

/-- **Integers compare as integers.** -/
theorem sqliteCompare_integer {a b : String} {m n : Int} (ha : integerValue a = some m)
    (hb : integerValue b = some n) : sqliteCompare a b = compare m n := by
  obtain ⟨hna, hfa⟩ := integerValue_some ha
  obtain ⟨hnb, hfb⟩ := integerValue_some hb
  unfold sqliteCompare
  rw [hna, hnb]
  show (sqliteAtoF a).cmp (sqliteAtoF b) = _
  rw [hfa, hfb]
  simp [Decimal.cmp]

/-- An integer of 53 bits is a double. -/
theorem exact_integer {s : String} {n : Int} (h : integerValue s = some n) (hn : |n| < 2 ^ 53) :
    Exact s := by
  intro _
  rw [(integerValue_some h).2, show value ⟨n, 0⟩ = n by simp [value]]
  exact Binary64.isFinite_intCast hn

/-! ## `like` -/

/-- `sqliteLikeCompare`: `%` matches any sequence, `_` any character (any byte to a library built
    without UTF-8: only there more than ASCII makes a difference), letters match in either case. -/
def likeMatch : List Char → List Char → Bool
  | [], s => s.isEmpty
  | p :: ps, s =>
    if p = '%' then s.tails.any (likeMatch ps)
    else
      match s with
      | [] => false
      | c :: s => (p == '_' || p.toLower == c.toLower) && likeMatch ps s

/-- `column like 'pattern'`. -/
def like (col : Option String) (pattern : String) : Bool :=
  match col with
  | none => false
  | some s => likeMatch pattern.toList s.toList

@[simp] theorem likeMatch_nil (s : List Char) : likeMatch [] s = true ↔ s = [] := by
  simp [likeMatch]

/-- A leading `%` skips any beginning of the text. -/
theorem likeMatch_percent {ps s : List Char} :
    likeMatch ('%' :: ps) s = true ↔ ∃ t, t <:+ s ∧ likeMatch ps t = true := by
  simp [likeMatch, List.any_eq_true, List.mem_tails]

/-- Any other character of a pattern matches one character of the text. -/
theorem likeMatch_char {p : Char} (hp : p ≠ '%') {ps s : List Char} :
    likeMatch (p :: ps) s = true ↔
      ∃ c t, s = c :: t ∧ (p = '_' ∨ p.toLower = c.toLower) ∧ likeMatch ps t = true := by
  cases s with
  | nil => simp [likeMatch, hp]
  | cons c t => simp [likeMatch, hp]

/-- A trailing `%` skips any end of the text.  Induction on the pattern. -/
theorem likeMatch_concat_percent : ∀ {ps s : List Char},
    likeMatch (ps ++ ['%']) s = true ↔ ∃ t, t <+: s ∧ likeMatch ps t = true
  | [], s => by
    rw [List.nil_append, likeMatch_percent]
    constructor
    · intro _
      exact ⟨[], List.nil_prefix, rfl⟩
    · intro _
      exact ⟨[], List.nil_suffix, rfl⟩
  | p :: ps, s => by
    rw [List.cons_append]
    by_cases hp : p = '%'
    · subst hp
      rw [likeMatch_percent]
      constructor
      · rintro ⟨t, ⟨a, rfl⟩, ht⟩
        obtain ⟨u, ⟨b, rfl⟩, hu⟩ := likeMatch_concat_percent.mp ht
        refine ⟨a ++ u, ⟨b, List.append_assoc a u b⟩, ?_⟩
        exact likeMatch_percent.mpr ⟨u, List.suffix_append a u, hu⟩
      · rintro ⟨t, ⟨b, rfl⟩, ht⟩
        obtain ⟨u, ⟨a, rfl⟩, hu⟩ := likeMatch_percent.mp ht
        refine ⟨u ++ b, ⟨a, (List.append_assoc a u b).symm⟩, ?_⟩
        exact likeMatch_concat_percent.mpr ⟨u, List.prefix_append u b, hu⟩
    · rw [likeMatch_char hp]
      constructor
      · rintro ⟨c, t, rfl, hc, ht⟩
        obtain ⟨u, hu, hm⟩ := likeMatch_concat_percent.mp ht
        exact ⟨c :: u, List.cons_prefix_cons.mpr ⟨rfl, hu⟩, (likeMatch_char hp).mpr ⟨c, u, rfl, hc, hm⟩⟩
      · rintro ⟨t, ht, hm⟩
        obtain ⟨c, u, rfl, hc, hu⟩ := (likeMatch_char hp).mp hm
        obtain ⟨b, rfl⟩ := ht
        exact ⟨c, u ++ b, rfl, hc, likeMatch_concat_percent.mpr ⟨u, List.prefix_append u b, hu⟩⟩

/-- **`like '%pattern%'`**: some segment of the text matches the pattern. -/
theorem likeMatch_contains {ps s : List Char} :
    likeMatch ('%' :: (ps ++ ['%'])) s = true ↔ ∃ w, w <:+: s ∧ likeMatch ps w = true := by
  rw [likeMatch_percent]
  constructor
  · rintro ⟨t, ht, hm⟩
    obtain ⟨w, hw, hm⟩ := likeMatch_concat_percent.mp hm
    exact ⟨w, hw.isInfix.trans ht.isInfix, hm⟩
  · rintro ⟨w, ⟨a, b, rfl⟩, hm⟩
    refine ⟨w ++ b, ⟨a, (List.append_assoc a w b).symm⟩, ?_⟩
    exact likeMatch_concat_percent.mpr ⟨w, List.prefix_append w b, hm⟩

/-- A pattern without `%` and `_` matches the text itself, in any mixture of cases. -/
theorem likeMatch_plain : ∀ {ps s : List Char}, '%' ∉ ps → '_' ∉ ps →
    (likeMatch ps s = true ↔ ps.map Char.toLower = s.map Char.toLower)
  | [], s, _, _ => by cases s <;> simp
  | p :: ps, s, hpct, hund => by
    rw [List.mem_cons, not_or] at hpct hund
    rw [likeMatch_char (Ne.symm hpct.1)]
    constructor
    · rintro ⟨c, t, rfl, hc, ht⟩
      rcases hc with rfl | hc
      · exact absurd rfl hund.1
      · rw [List.map_cons, List.map_cons, hc, (likeMatch_plain hpct.2 hund.2).mp ht]
    · intro h
      cases s with
      | nil => simp at h
      | cons c t =>
        rw [List.map_cons, List.map_cons, List.cons.injEq] at h
        exact ⟨c, t, rfl, Or.inr h.1, (likeMatch_plain hpct.2 hund.2).mpr h.2⟩

example : sqliteCompare "9" "10" = .lt := by decide
example : integerValue "-42" = some (-42) := by decide
example : sqliteCompare "9" "ten" = .lt := by decide
example : like (some "node1,node2") "%NODE2%" = true := by decide

end RubyQueue.Sqlite
