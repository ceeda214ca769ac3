/-
  `Util.timestamp` of `lib/rq/util.rb`, the text every time in the queue is kept as.

  An instant is a number of microseconds since the beginning of 1970 on a clock of fixed UTC offset.
  Its stamp is `%Y-%m-%d %H:%M:%S.` and the microseconds — which the code pads with zeros on the
  RIGHT: 5 microseconds show as `.500000`.

  * `timestamp_lt_iff` — stamps sort as instants do, except within one second, where they sort as
    what the six digits show (`shown`).
-/
import Mathlib.Order.Monotone.Basic
import RubyQueue.Base.Padded
import RubyQueue.Quote
import RubyQueue.Sqlite

namespace RubyQueue.Util

open RubyQueue.Padded RubyQueue.Quote RubyQueue.Sqlite

/-! ## The calendar -/

/-- A day of the Gregorian calendar. -/
structure Date where
  year : Nat
  month : Nat
  day : Nat
deriving DecidableEq, Repr

def isLeap (year : Nat) : Bool := year % 4 == 0 && (year % 100 != 0 || year % 400 == 0)

/-- The number of days of a month. -/
def daysIn (year month : Nat) : Nat :=
  if month = 2 then (if isLeap year then 29 else 28)
  else if month = 4 ∨ month = 6 ∨ month = 9 ∨ month = 11 then 30 else 31

def Date.next (d : Date) : Date :=
  if d.day < daysIn d.year d.month then { d with day := d.day + 1 }
  else if d.month < 12 then ⟨d.year, d.month + 1, 1⟩
  else ⟨d.year + 1, 1, 1⟩

/-- The date `n` days after the first of January 1970. -/
def dateOf : Nat → Date
  | 0 => ⟨1970, 1, 1⟩
  | n + 1 => (dateOf n).next

/-- Every date is one of the calendar. -/
theorem dateOf_valid (n : Nat) :
    1970 ≤ (dateOf n).year ∧ 1 ≤ (dateOf n).month ∧ (dateOf n).month ≤ 12 ∧ 1 ≤ (dateOf n).day ∧
      (dateOf n).day ≤ 31 := by
  induction n with
  | zero => decide
  | succ n ih =>
    have hdays : daysIn (dateOf n).year (dateOf n).month ≤ 31 := by
      unfold daysIn
      split
      · split <;> omega
      · split <;> omega
    rw [dateOf]
    unfold Date.next
    split
    · dsimp only
      omega
    split
    · dsimp only
      omega
    · dsimp only
      omega

/-- A date as one number, `yyyymmdd`. -/
def Date.number (d : Date) : Nat := (d.year * 100 + d.month) * 100 + d.day

theorem Date.number_lt_next {d : Date} (hmonth : d.month ≤ 12) (hday : d.day ≤ 31) :
    d.number < d.next.number := by
  unfold Date.next Date.number
  split
  · show _ < (d.year * 100 + d.month) * 100 + (d.day + 1)
    omega
  split
  · show _ < (d.year * 100 + (d.month + 1)) * 100 + 1
    omega
  · show _ < ((d.year + 1) * 100 + 1) * 100 + 1
    omega

/-- Later days have later dates. -/
theorem dateOf_strictMono : StrictMono fun n => (dateOf n).number := by
  refine strictMono_nat_of_lt_succ fun n => ?_
  obtain ⟨-, -, hmonth, -, hday⟩ := dateOf_valid n
  exact Date.number_lt_next hmonth hday

/-! ## `timestamp` -/

/-- `usec << ('0' * (6 - usec.size)) if usec.size < 6`. -/
def usecText (usec : Nat) : Text :=
  Nat.toDigits 10 usec ++ List.replicate (6 - (Nat.toDigits 10 usec).length) '0'

/-- `%Y-%m-%d %H:%M:%S.` of a number of seconds. -/
def secondText (sec : Nat) (rest : Text) : Text :=
  let date := dateOf (sec / 86400)
  Nat.toDigits 10 date.year ++ '-' :: (pad 2 date.month ++ '-' :: (pad 2 date.day ++ ' ' ::
    (pad 2 (sec % 86400 / 3600) ++ ':' :: (pad 2 (sec % 3600 / 60) ++ ':' ::
      (pad 2 (sec % 60) ++ '.' :: rest)))))

/-- `Util.timestamp` of the instant `t`. -/
def timestamp (t : Nat) : String :=
  String.ofList (secondText (t / 1000000) (usecText (t % 1000000)))

example : timestamp 5 = "1970-01-01 00:00:00.500000" := by decide

/-- The number the six digits show. -/
def shown (usec : Nat) : Nat := usec * 10 ^ (6 - (Nat.toDigits 10 usec).length)

/-- The year has four digits. -/
def FourDigits (t : Nat) : Prop := (dateOf (t / 1000000 / 86400)).year < 10000

instance (t : Nat) : Decidable (FourDigits t) := inferInstanceAs (Decidable (_ < _))

theorem usecText_eq {usec : Nat} (h : usec < 1000000) : usecText usec = pad 6 (shown usec) := by
  have hlen : (Nat.toDigits 10 usec).length ≤ 6 :=
    (Nat.length_toDigits_le_iff (by decide) (by decide)).mpr h
  have hpad := toDigits_eq_pad usec
  unfold usecText shown
  generalize (Nat.toDigits 10 usec).length = k at hlen hpad
  rw [hpad, pad_append_zeros, Nat.add_sub_cancel' hlen]

theorem shown_lt {usec : Nat} (h : usec < 1000000) : shown usec < 10 ^ 6 := by
  have hlen : (Nat.toDigits 10 usec).length ≤ 6 :=
    (Nat.length_toDigits_le_iff (by decide) (by decide)).mpr h
  have hlt := lt_pow_length_toDigits usec
  unfold shown
  generalize (Nat.toDigits 10 usec).length = k at hlen hlt
  calc usec * 10 ^ (6 - k) < 10 ^ k * 10 ^ (6 - k) :=
        Nat.mul_lt_mul_of_pos_right hlt (Nat.pow_pos (by decide))
    _ = 10 ^ 6 := by rw [← Nat.pow_add, Nat.add_sub_cancel' hlen]

/-- A year of four digits is a field of four digits. -/
theorem year_eq_pad {year : Nat} (hlow : 1000 ≤ year) (hhigh : year < 10000) :
    Nat.toDigits 10 year = pad 4 year := by
  have hle : (Nat.toDigits 10 year).length ≤ 4 :=
    (Nat.length_toDigits_le_iff (by decide) (by decide)).mpr hhigh
  have hge : ¬ (Nat.toDigits 10 year).length ≤ 3 := by
    rw [Nat.length_toDigits_le_iff (by decide) (by decide)]
    omega
  have hlen : (Nat.toDigits 10 year).length = 4 := by omega
  have hpad := toDigits_eq_pad year
  rwa [hlen] at hpad

/-! ## The order of stamps -/

/-- A separator decides nothing. -/
theorem cons_lt_cons_self {c : Char} {s t : Text} : c :: s < c :: t ↔ s < t := by
  rw [List.cons_lt_cons_iff]
  simp

/-- Three fields in order of significance compare as the one number they make up. -/
theorem fields_iff {a b c a' b' c' w : Nat} {P : Prop} (hw : w = 100 ∨ w = 60) (hb : b < w)
    (hb' : b' < w) (hc : c < w) (hc' : c' < w) :
    (a < a' ∨ (a = a' ∧ (b < b' ∨ (b = b' ∧ (c < c' ∨ (c = c' ∧ P)))))) ↔
      ((a * w + b) * w + c < (a' * w + b') * w + c' ∨
        ((a * w + b) * w + c = (a' * w + b') * w + c' ∧ P)) := by
  by_cases hP : P
  · rcases hw with rfl | rfl <;> simp only [hP, and_true] <;> omega
  · rcases hw with rfl | rfl <;> simp only [hP, and_false, or_false] <;> omega

/-- `%Y-%m-%d %H:%M:%S.` of a date and a second of the day. -/
def dateText (d : Date) (sec : Nat) (rest : Text) : Text :=
  Nat.toDigits 10 d.year ++ '-' :: (pad 2 d.month ++ '-' :: (pad 2 d.day ++ ' ' ::
    (pad 2 (sec / 3600) ++ ':' :: (pad 2 (sec % 3600 / 60) ++ ':' ::
      (pad 2 (sec % 60) ++ '.' :: rest)))))

/-- Every field of the date fits its width. -/
def Date.Fits (d : Date) : Prop :=
  1000 ≤ d.year ∧ d.year < 10000 ∧ d.month < 100 ∧ d.day < 100

/-- **Dates and seconds sort as text.** -/
theorem dateText_lt_iff {d d' : Date} {s s' : Nat} {r r' : Text} (hd : d.Fits) (hd' : d'.Fits)
    (hs : s < 86400) (hs' : s' < 86400) :
    dateText d s r < dateText d' s' r' ↔
      d.number < d'.number ∨ (d.number = d'.number ∧ (s < s' ∨ (s = s' ∧ r < r'))) := by
  obtain ⟨hlow, hhigh, hmonth, hday⟩ := hd
  obtain ⟨hlow', hhigh', hmonth', hday'⟩ := hd'
  unfold dateText Date.number
  rw [year_eq_pad hlow hhigh, year_eq_pad hlow' hhigh']
  rw [pad_append_lt_iff (by omega) (by omega), cons_lt_cons_self,
    pad_append_lt_iff (by omega) (by omega), cons_lt_cons_self,
    pad_append_lt_iff (by omega) (by omega), cons_lt_cons_self,
    pad_append_lt_iff (by omega) (by omega), cons_lt_cons_self,
    pad_append_lt_iff (by omega) (by omega), cons_lt_cons_self,
    pad_append_lt_iff (by omega) (by omega), cons_lt_cons_self]
  rw [fields_iff (Or.inl rfl) hmonth hmonth' hday hday',
    fields_iff (Or.inr rfl) (by omega) (by omega) (by omega) (by omega)]
  by_cases hr : r < r'
  · simp only [hr, and_true]
    omega
  · simp only [hr, and_false, or_false]
    omega

theorem secondText_eq (s : Nat) (r : Text) :
    secondText s r = dateText (dateOf (s / 86400)) (s % 86400) r := by
  have hmin : s % 86400 % 3600 = s % 3600 := Nat.mod_mod_of_dvd s (by decide)
  have hsec : s % 86400 % 60 = s % 60 := Nat.mod_mod_of_dvd s (by decide)
  unfold secondText dateText
  rw [hmin, hsec]

/-- **Seconds sort as text.** -/
theorem secondText_lt_iff {s s' : Nat} {r r' : Text} (hy : (dateOf (s / 86400)).year < 10000)
    (hy' : (dateOf (s' / 86400)).year < 10000) :
    secondText s r < secondText s' r' ↔ s < s' ∨ (s = s' ∧ r < r') := by
  have hfits : ∀ n, (dateOf n).year < 10000 → (dateOf n).Fits := by
    intro n hn
    obtain ⟨hyear, -, hmonth, -, hday⟩ := dateOf_valid n
    exact ⟨by omega, hn, by omega, by omega⟩
  rw [secondText_eq, secondText_eq, dateText_lt_iff (hfits _ hy) (hfits _ hy')
    (Nat.mod_lt s (by decide)) (Nat.mod_lt s' (by decide))]
  have hdate : (dateOf (s / 86400)).number < (dateOf (s' / 86400)).number ↔ _ :=
    dateOf_strictMono.lt_iff_lt
  have hdate' : (dateOf (s / 86400)).number = (dateOf (s' / 86400)).number ↔ _ :=
    dateOf_strictMono.injective.eq_iff
  rw [hdate, hdate']
  by_cases hr : r < r'
  · simp only [hr, and_true]
    omega
  · simp only [hr, and_false, or_false]
    omega

/-- **The order of stamps.**  Stamps sort as the instants do, except within one second, where they
    sort as the numbers their last six digits show. -/
theorem timestamp_lt_iff {t u : Nat} (ht : FourDigits t) (hu : FourDigits u) :
    timestamp t < timestamp u ↔
      t / 1000000 < u / 1000000 ∨
        (t / 1000000 = u / 1000000 ∧ shown (t % 1000000) < shown (u % 1000000)) := by
  have hmod : ∀ n : Nat, n % 1000000 < 1000000 := fun n => Nat.mod_lt n (by decide)
  unfold timestamp
  rw [String.lt_iff_toList_lt, String.toList_ofList, String.toList_ofList,
    secondText_lt_iff ht hu, usecText_eq (hmod t), usecText_eq (hmod u),
    pad_lt_iff (shown_lt (hmod t)) (shown_lt (hmod u))]

/-! ## Stamps in a statement -/

theorem isDigit_of_mem_pad : ∀ {w n : Nat} {c : Char}, c ∈ pad w n → c.isDigit = true
  | 0, _, _, h => by cases h
  | w + 1, n, c, h => by
    rcases List.mem_append.mp h with h | h
    · exact isDigit_of_mem_pad h
    · have key : ∀ i : Fin 10, (Nat.digitChar i).isDigit = true := by decide
      rw [List.mem_singleton.mp h]
      exact key ⟨n % 10, Nat.mod_lt n (by decide)⟩

/-- The characters of a stamp. -/
def isStampChar (c : Char) : Bool := c.isDigit || ['-', ' ', ':', '.'].contains c

theorem isStampChar_of_mem {t : Nat} {c : Char} (h : c ∈ (timestamp t).toList) :
    isStampChar c = true := by
  have hdigit : c.isDigit = true → isStampChar c = true := fun hd => by simp [isStampChar, hd]
  unfold timestamp secondText usecText at h
  simp only [String.toList_ofList, List.mem_append, List.mem_cons, List.mem_replicate] at h
  rcases h with h | rfl | h | rfl | h | rfl | h | rfl | h | rfl | h | rfl | h | ⟨-, rfl⟩
  · exact hdigit (Nat.isDigit_of_mem_toDigits (by decide) (by decide) h)
  · decide
  · exact hdigit (isDigit_of_mem_pad h)
  · decide
  · exact hdigit (isDigit_of_mem_pad h)
  · decide
  · exact hdigit (isDigit_of_mem_pad h)
  · decide
  · exact hdigit (isDigit_of_mem_pad h)
  · decide
  · exact hdigit (isDigit_of_mem_pad h)
  · decide
  · exact hdigit (Nat.isDigit_of_mem_toDigits (by decide) (by decide) h)
  · decide

theorem quote_not_mem_timestamp (t : Nat) : '\'' ∉ (timestamp t).toList :=
  fun h => absurd (isStampChar_of_mem h) (by decide)

/-- Digits with a dash after them are no numeral. -/
theorem sqliteIsNumber_dash {ds rest : Text} (hne : ds ≠ []) (hds : ∀ c ∈ ds, c.isDigit = true) :
    sqliteIsNumber (String.ofList (ds ++ '-' :: rest)) = false := by
  obtain ⟨d, ds, rfl⟩ := List.exists_cons_of_ne_nil hne
  have hd : d.isDigit = true := hds d List.mem_cons_self
  have hsign : dropSign (d :: (ds ++ '-' :: rest)) = d :: (ds ++ '-' :: rest) := by
    unfold dropSign
    split
    · rename_i heq
      rw [(List.cons.inj heq).1] at hd
      exact absurd hd (by decide)
    · rename_i heq
      rw [(List.cons.inj heq).1] at hd
      exact absurd hd (by decide)
    · rfl
  have hdrop : (ds ++ '-' :: rest).dropWhile Char.isDigit = '-' :: rest := by
    rw [List.dropWhile_append_of_pos fun c hc => hds c (List.mem_cons_of_mem d hc)]
    rfl
  unfold sqliteIsNumber
  rw [String.toList_ofList, List.cons_append, hsign]
  dsimp only
  rw [hdrop, hd]
  rfl

/-- A stamp is no numeral, so SQLite compares it as text. -/
theorem timestamp_notNumeral (t : Nat) : sqliteIsNumber (timestamp t) = false :=
  sqliteIsNumber_dash Nat.toDigits_ne_nil fun _ hc =>
    Nat.isDigit_of_mem_toDigits (by decide) (by decide) hc

theorem sqliteCompare_timestamp (t u : Nat) :
    sqliteCompare (timestamp t) (timestamp u) = compare (timestamp t) (timestamp u) := by
  rw [sqliteCompare, timestamp_notNumeral, timestamp_notNumeral]

end RubyQueue.Util
