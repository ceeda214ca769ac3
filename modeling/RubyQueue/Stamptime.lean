/-
  Do time stamps sort, and read back, as the instants they were made of?

  `Util.stamptime` reads the six digits behind the point as a number of microseconds, and
  `Util.timestamp` pads that number with zeros on the RIGHT: 5 microseconds show as `.500000` and are
  read as half a second.  `stamp_faithful_iff` is the exact condition for two instants of any
  four-digit years.

  `Timestamp` counts its instants from 1970.  Here they are counted from the beginning of the year
  0, so that every four-digit year is among them; `timestamp_since_epoch` connects the two.

  `Time.local` is Ruby's: a day the month does not have, the hour 24 and the second 60 count on into
  what follows.
-/
import RubyQueue.Timestamp

namespace RubyQueue.Stamptime

open RubyQueue.Padded RubyQueue.Quote RubyQueue.Sqlite RubyQueue.Util

/-! ## Days and dates -/

/-- The date `n` days after the first of January of the year 0. -/
def civil : Nat → Date
  | 0 => ⟨0, 1, 1⟩
  | n + 1 => (civil n).next

/-- The days of a year before a month. -/
def monthStart (year : Nat) : Nat → Nat
  | 0 => 0
  | 1 => 0
  | month + 2 => monthStart year (month + 1) + daysIn year (month + 1)

/-- The days before a year. -/
def yearStart : Nat → Nat
  | 0 => 0
  | year + 1 => yearStart year + monthStart year 13

/-- The days before a date. -/
def dayNumber (year month day : Nat) : Nat := yearStart year + monthStart year month + (day - 1)

theorem daysIn_pos (year month : Nat) : 1 ≤ daysIn year month ∧ daysIn year month ≤ 31 := by
  unfold daysIn
  split
  · split <;> decide
  · split <;> decide

theorem civil_valid (n : Nat) :
    1 ≤ (civil n).month ∧ (civil n).month ≤ 12 ∧ 1 ≤ (civil n).day ∧
      (civil n).day ≤ daysIn (civil n).year (civil n).month := by
  induction n with
  | zero => decide
  | succ n ih =>
    rw [civil]
    unfold Date.next
    split
    · dsimp only
      omega
    split
    · have := (daysIn_pos (civil n).year ((civil n).month + 1)).1
      dsimp only
      omega
    · have := (daysIn_pos ((civil n).year + 1) 1).1
      dsimp only
      omega

theorem monthStart_succ (year : Nat) {month : Nat} (h : 1 ≤ month) :
    monthStart year (month + 1) = monthStart year month + daysIn year month := by
  obtain ⟨m, rfl⟩ : ∃ m, month = m + 1 := ⟨month - 1, by omega⟩
  rfl

/-- **Counting back.**  `n` days go by before the date `civil n`. -/
theorem dayNumber_civil (n : Nat) :
    dayNumber (civil n).year (civil n).month (civil n).day = n := by
  induction n with
  | zero => decide
  | succ n ih =>
    obtain ⟨hm1, hm12, hd1, hd⟩ := civil_valid n
    unfold dayNumber at ih ⊢
    rw [civil]
    unfold Date.next
    split
    · dsimp only
      omega
    split
    · have := monthStart_succ (civil n).year hm1
      dsimp only
      omega
    · -- the last day of December
      have hdec : (civil n).month = 12 := by omega
      have hdays : daysIn (civil n).year (civil n).month = daysIn (civil n).year 12 := by rw [hdec]
      rw [hdec] at ih
      have hyear : yearStart ((civil n).year + 1)
          = yearStart (civil n).year + (monthStart (civil n).year 12 + daysIn (civil n).year 12) :=
        rfl
      have hjan : monthStart ((civil n).year + 1) 1 = 0 := rfl
      dsimp only
      omega

theorem civil_add_day {n year month : Nat} (h : civil n = ⟨year, month, 1⟩) :
    ∀ {k : Nat}, k < daysIn year month → civil (n + k) = ⟨year, month, 1 + k⟩
  | 0, _ => h
  | k + 1, hk => by
    have ih := civil_add_day h (Nat.lt_of_succ_lt hk)
    rw [← Nat.add_assoc, civil, ih]
    unfold Date.next
    rw [if_pos (show 1 + k < daysIn year month by omega)]
    rfl

/-- From the first of a month to the first of the next. -/
theorem civil_add_month {n year month : Nat} (h : civil n = ⟨year, month, 1⟩) :
    civil (n + daysIn year month)
      = if month < 12 then ⟨year, month + 1, 1⟩ else ⟨year + 1, 1, 1⟩ := by
  have hpos := (daysIn_pos year month).1
  have hlast := civil_add_day h (show daysIn year month - 1 < daysIn year month by omega)
  obtain ⟨k, hk⟩ : ∃ k, daysIn year month = k + 1 := ⟨daysIn year month - 1, by omega⟩
  rw [hk, Nat.add_sub_cancel] at hlast
  rw [hk, ← Nat.add_assoc, civil, hlast]
  unfold Date.next
  rw [if_neg (show ¬ 1 + k < daysIn year month by omega)]

theorem civil_monthStart {n year : Nat} (h : civil n = ⟨year, 1, 1⟩) :
    ∀ {month : Nat}, 1 ≤ month → month ≤ 12 → civil (n + monthStart year month) = ⟨year, month, 1⟩
  | 0, h0, _ => absurd h0 (by decide)
  | 1, _, _ => h
  | month + 2, _, h12 => by
    have ih := civil_monthStart h (show 1 ≤ month + 1 by omega) (show month + 1 ≤ 12 by omega)
    rw [monthStart, ← Nat.add_assoc, civil_add_month ih, if_pos (show month + 1 < 12 by omega)]

/-- The years begin on the first of January: induction on the year. -/
theorem civil_yearStart : ∀ year : Nat, civil (yearStart year) = ⟨year, 1, 1⟩
  | 0 => rfl
  | year + 1 => by
    have hdec := civil_monthStart (civil_yearStart year) (by decide : 1 ≤ 12) (by decide)
    rw [yearStart, monthStart_succ year (by decide : 1 ≤ 12), ← Nat.add_assoc, civil_add_month hdec,
      if_neg (by decide)]

/-! ## `timestamp` -/

def daysOf (t : Nat) : Nat := t / 86400000000
def secondOf (t : Nat) : Nat := t / 1000000 % 86400
def usecOf (t : Nat) : Nat := t % 1000000

/-- `Util.timestamp` of the instant `t`. -/
def timestamp (t : Nat) : String :=
  String.ofList (dateText (civil (daysOf t)) (secondOf t) (usecText (usecOf t)))

/-- The year has four digits. -/
def FourDigits (t : Nat) : Prop :=
  1000 ≤ (civil (daysOf t)).year ∧ (civil (daysOf t)).year < 10000

/-- The beginning of 1970. -/
def epoch : Nat := yearStart 1970 * 86400000000

/-- **The stamp of an instant since 1970.** -/
theorem timestamp_since_epoch (t : Nat) : Util.timestamp t = timestamp (epoch + t) := by
  have hstart : civil (yearStart 1970) = dateOf 0 := civil_yearStart 1970
  unfold timestamp daysOf secondOf usecOf epoch
  generalize yearStart 1970 = start at hstart
  have hdate : ∀ n, civil (start + n) = dateOf n := by
    intro n
    induction n with
    | zero => exact hstart
    | succ n ih => rw [← Nat.add_assoc, civil, ih, dateOf]
  have hday : (start * 86400000000 + t) / 86400000000 = start + t / 86400000000 := by omega
  have hsec : (start * 86400000000 + t) / 1000000 % 86400 = t / 1000000 % 86400 := by omega
  have husec : (start * 86400000000 + t) % 1000000 = t % 1000000 := by omega
  unfold Util.timestamp
  rw [secondText_eq, Nat.div_div_eq_div_mul, hday, hsec, husec, hdate]

/-! ## `stamptime` -/

/-- `(\d{w})`, and its `to_i`. -/
def readDigits (w : Nat) (s : Text) : Option (Nat × Text) :=
  if (s.take w).length = w ∧ (s.take w).all Char.isDigit then
    some (digitsValue (s.take w), s.drop w)
  else none

/-- One character of the pattern. -/
def readChar (p : Char → Bool) : Text → Option Text
  | c :: s => if p c then some s else none
  | [] => none

/-- `\s*$` can match. -/
def endsLine (s : Text) : Bool :=
  (s.dropWhile isBlank).isEmpty || (s.takeWhile isBlank).contains '\n'

/-- What `Time.local` is called with. -/
structure Fields where
  yyyy : Nat
  mm : Nat
  dd : Nat
  h : Nat
  m : Nat
  s : Nat
  u : Nat
deriving DecidableEq, Repr

/-- The pattern at one place. -/
def matchAt (t : Text) : Option Fields := do
  let (yyyy, t) ← readDigits 4 (t.dropWhile isBlank)
  let t ← readChar (· == '-') t
  let (mm, t) ← readDigits 2 t
  let t ← readChar (· == '-') t
  let (dd, t) ← readDigits 2 t
  let t ← readChar (· == ' ') t
  let (h, t) ← readDigits 2 t
  let t ← readChar (· == ':') t
  let (m, t) ← readDigits 2 t
  let t ← readChar (· == ':') t
  let (s, t) ← readDigits 2 t
  -- a dot in a pattern is any character of the line
  let t ← readChar (· != '\n') t
  let (u, t) ← readDigits 6 t
  if endsLine t then some ⟨yyyy, mm, dd, h, m, s, u⟩ else none

/-- The places `^` matches at. -/
def lineStarts (s : Text) : List Text :=
  s :: s.tails.filterMap fun | '\n' :: t => some t | _ => none

/-- `Time.local`: the instant of the fields, on a clock of the same offset. -/
def timeLocal (f : Fields) : Option Nat :=
  if (1 ≤ f.mm ∧ f.mm ≤ 12) ∧ (1 ≤ f.dd ∧ f.dd ≤ 31) ∧ (f.h < 24 ∨ (f.h = 24 ∧ f.m = 0 ∧ f.s = 0)) ∧
      f.m < 60 ∧ f.s ≤ 60 then
    some ((((dayNumber f.yyyy f.mm f.dd * 24 + f.h) * 60 + f.m) * 60 + f.s) * 1000000 + f.u)
  else none

/-- `Util.stamptime`; without a match, or out of range, it raises ArgumentError. -/
def stamptime (string : String) : Option Nat :=
  ((lineStarts string.toList).findSome? matchAt).bind timeLocal

/-! ## Reading a stamp back -/

theorem digitsValue_pad : ∀ {w n : Nat}, n < 10 ^ w → digitsValue (pad w n) = n
  | 0, n, h => by
    rw [Nat.pow_zero, Nat.lt_one_iff] at h
    exact h.symm
  | w + 1, n, h => by
    have hdiv : n / 10 < 10 ^ w := by
      rw [Nat.pow_succ] at h
      omega
    have hdigit : ∀ i : Fin 10, (Nat.digitChar i).toNat - '0'.toNat = i := by decide
    have hlast : (Nat.digitChar (n % 10)).toNat - '0'.toNat = n % 10 :=
      hdigit ⟨n % 10, Nat.mod_lt n (by decide)⟩
    have ih : (pad w (n / 10)).foldl _ 0 = n / 10 := digitsValue_pad hdiv
    unfold digitsValue
    rw [pad, List.foldl_append, ih, List.foldl_cons, List.foldl_nil, hlast]
    omega

theorem readDigits_pad {w n : Nat} (h : n < 10 ^ w) (rest : Text) :
    readDigits w (pad w n ++ rest) = some (n, rest) := by
  have htake : (pad w n ++ rest).take w = pad w n := by
    rw [List.take_append_of_le_length (by simp), List.take_of_length_le (by simp)]
  have hdrop : (pad w n ++ rest).drop w = rest := by
    rw [List.drop_append_of_le_length (by simp), List.drop_eq_nil_of_le (by simp), List.nil_append]
  have hall : (pad w n).all Char.isDigit = true :=
    List.all_eq_true.mpr fun c hc => isDigit_of_mem_pad hc
  unfold readDigits
  rw [htake, hdrop, hall, digitsValue_pad h, length_pad, if_pos ⟨rfl, rfl⟩]

theorem dropWhile_pad (w n : Nat) (rest : Text) :
    (pad (w + 1) n ++ rest).dropWhile isBlank = pad (w + 1) n ++ rest := by
  obtain ⟨c, cs, hpad⟩ := List.exists_cons_of_ne_nil (show pad (w + 1) n ≠ [] by simp [pad])
  have hdigit : c.isDigit = true := isDigit_of_mem_pad (hpad ▸ List.mem_cons_self)
  rw [hpad, List.cons_append, List.dropWhile_cons_of_neg (by simp [isBlank_of_isDigit hdigit])]

/-- The pattern on a stamp: every field is read as the number that was written. -/
theorem matchAt_dateText {d : Date} {sec u : Nat} (hd : d.Fits) (hsec : sec < 86400)
    (hu : u < 10 ^ 6) :
    matchAt (dateText d sec (pad 6 u))
      = some ⟨d.year, d.month, d.day, sec / 3600, sec % 3600 / 60, sec % 60, u⟩ := by
  obtain ⟨hlow, hhigh, hmonth, hday⟩ := hd
  have hyear := @readDigits_pad 4 d.year hhigh
  have hmonth := @readDigits_pad 2 d.month hmonth
  have hday := @readDigits_pad 2 d.day hday
  have hhour := @readDigits_pad 2 (sec / 3600) (by omega)
  have hmin := @readDigits_pad 2 (sec % 3600 / 60) (by omega)
  have hs := @readDigits_pad 2 (sec % 60) (by omega)
  have husec := readDigits_pad hu []
  rw [List.append_nil] at husec
  have hdash : ∀ t, readChar (· == '-') ('-' :: t) = some t := fun _ => rfl
  have hcolon : ∀ t, readChar (· == ':') (':' :: t) = some t := fun _ => rfl
  unfold matchAt dateText
  rw [year_eq_pad hlow hhigh, dropWhile_pad]
  -- field by field, each with what stands behind it
  refine Option.bind_eq_some_iff.mpr ⟨_, hyear _, ?_⟩
  refine Option.bind_eq_some_iff.mpr ⟨_, hdash _, ?_⟩
  refine Option.bind_eq_some_iff.mpr ⟨_, hmonth _, ?_⟩
  refine Option.bind_eq_some_iff.mpr ⟨_, hdash _, ?_⟩
  refine Option.bind_eq_some_iff.mpr ⟨_, hday _, ?_⟩
  refine Option.bind_eq_some_iff.mpr ⟨_, (rfl : readChar (· == ' ') (' ' :: _) = some _), ?_⟩
  refine Option.bind_eq_some_iff.mpr ⟨_, hhour _, ?_⟩
  refine Option.bind_eq_some_iff.mpr ⟨_, hcolon _, ?_⟩
  refine Option.bind_eq_some_iff.mpr ⟨_, hmin _, ?_⟩
  refine Option.bind_eq_some_iff.mpr ⟨_, hcolon _, ?_⟩
  refine Option.bind_eq_some_iff.mpr ⟨_, hs _, ?_⟩
  refine Option.bind_eq_some_iff.mpr ⟨_, (rfl : readChar (· != '\n') ('.' :: _) = some _), ?_⟩
  refine Option.bind_eq_some_iff.mpr ⟨_, husec, ?_⟩
  rfl

/-- **What a stamp is read as**: the instant, with the microseconds its digits show. -/
theorem stamptime_timestamp {t : Nat} (ht : FourDigits t) :
    stamptime (timestamp t) = some (t - usecOf t + shown (usecOf t)) := by
  obtain ⟨hm1, hm12, hd1, hd⟩ := civil_valid (daysOf t)
  have hd31 := (daysIn_pos (civil (daysOf t)).year (civil (daysOf t)).month).2
  have husec : usecOf t < 1000000 := Nat.mod_lt t (by decide)
  have hsec : secondOf t < 86400 := Nat.mod_lt _ (by decide)
  have hmatch := @matchAt_dateText (civil (daysOf t)) (secondOf t) (shown (usecOf t))
    ⟨ht.1, ht.2, by omega, by omega⟩ hsec (shown_lt husec)
  unfold stamptime timestamp
  rw [String.toList_ofList, usecText_eq husec, lineStarts, List.findSome?_cons, hmatch]
  show timeLocal _ = _
  unfold timeLocal
  dsimp only
  rw [if_pos (by omega), dayNumber_civil]
  unfold daysOf secondOf usecOf at *
  congr 1
  omega

/-! ## Order and inverse -/

theorem civil_strictMono : StrictMono fun n => (civil n).number := by
  refine strictMono_nat_of_lt_succ fun n => ?_
  obtain ⟨-, hmonth, -, hday⟩ := civil_valid n
  have hday31 := (daysIn_pos (civil n).year (civil n).month).2
  exact Date.number_lt_next hmonth (Nat.le_trans hday hday31)

theorem FourDigits.fits {t : Nat} (h : FourDigits t) : (civil (daysOf t)).Fits := by
  obtain ⟨-, hmonth, -, hday⟩ := civil_valid (daysOf t)
  have hday31 := (daysIn_pos (civil (daysOf t)).year (civil (daysOf t)).month).2
  exact ⟨h.1, h.2, by omega, by omega⟩

/-- Stamps sort as the instants do, except within one second. -/
theorem timestamp_lt_iff {t u : Nat} (ht : FourDigits t) (hu : FourDigits u) :
    timestamp t < timestamp u ↔
      t / 1000000 < u / 1000000 ∨
        (t / 1000000 = u / 1000000 ∧ shown (usecOf t) < shown (usecOf u)) := by
  have husec : ∀ n, usecOf n < 1000000 := fun n => Nat.mod_lt n (by decide)
  have hsec : ∀ n, secondOf n < 86400 := fun n => Nat.mod_lt _ (by decide)
  have hday : (civil (daysOf t)).number < (civil (daysOf u)).number ↔ _ :=
    civil_strictMono.lt_iff_lt
  have hday' : (civil (daysOf t)).number = (civil (daysOf u)).number ↔ _ :=
    civil_strictMono.injective.eq_iff
  unfold timestamp
  rw [String.lt_iff_toList_lt, String.toList_ofList, String.toList_ofList,
    dateText_lt_iff ht.fits hu.fits (hsec t) (hsec u), usecText_eq (husec t),
    usecText_eq (husec u), pad_lt_iff (shown_lt (husec t)) (shown_lt (husec u)), hday, hday']
  generalize shown (usecOf t) = x, shown (usecOf u) = y
  unfold daysOf secondOf
  omega

/-- Zeros on the right leave 0 and a number of six digits alone, and make a number of six digits of
    any other. -/
theorem shown_cases {u : Nat} (h : u < 1000000) :
    (u = 0 ∨ 100000 ≤ u → shown u = u) ∧ (0 < u → 100000 ≤ shown u) := by
  have hle : (Nat.toDigits 10 u).length ≤ 6 :=
    (Nat.length_toDigits_le_iff (by decide) (by decide)).mpr h
  have hpos : 0 < (Nat.toDigits 10 u).length := Nat.length_toDigits_pos
  constructor
  · rintro (rfl | hbig)
    · rfl
    · have hnot : ¬ (Nat.toDigits 10 u).length ≤ 5 := by
        rw [Nat.length_toDigits_le_iff (by decide) (by decide)]
        omega
      have hsix : (Nat.toDigits 10 u).length = 6 := by omega
      unfold shown
      rw [hsix, Nat.sub_self, Nat.pow_zero, Nat.mul_one]
  · intro hu
    -- the first digit is not 0
    have hlow : 10 ^ ((Nat.toDigits 10 u).length - 1) ≤ u := by
      by_contra hlt
      rcases Nat.eq_or_lt_of_le hpos with hone | hmany
      · rw [← hone] at hlt
        exact hlt hu
      · have hlen := (Nat.length_toDigits_le_iff (by decide) (by omega)).mpr (Nat.lt_of_not_le hlt)
        omega
    unfold shown
    generalize (Nat.toDigits 10 u).length = k at *
    calc 100000 = 10 ^ (k - 1 + (6 - k)) := by rw [show k - 1 + (6 - k) = 5 by omega]
      _ = 10 ^ (k - 1) * 10 ^ (6 - k) := Nat.pow_add ..
      _ ≤ u * 10 ^ (6 - k) := Nat.mul_le_mul_right _ hlow

/-- **When stamps are faithful.**  For any two instants of four-digit years: their stamps sort as
    they do and the stamp of the first reads back as it, exactly when the first falls on a whole
    second, or has microseconds of six digits, no less than what fewer digits of the second one show
    in the same second. -/
theorem stamp_faithful_iff (t u : Nat) (ht : FourDigits t) (hu : FourDigits u) :
    ((timestamp t < timestamp u ↔ t < u) ∧ stamptime (timestamp t) = some t) ↔
      usecOf t = 0 ∨ (100000 ≤ usecOf t ∧
        (t / 1000000 = u / 1000000 → usecOf u < 100000 → shown (usecOf u) ≤ usecOf t)) := by
  have htu : usecOf t < 1000000 := Nat.mod_lt t (by decide)
  have huu : usecOf u < 1000000 := Nat.mod_lt u (by decide)
  have hle : usecOf t ≤ t := Nat.mod_le t _
  obtain ⟨hkeep, hgrow⟩ := shown_cases htu
  obtain ⟨hkeep', hgrow'⟩ := shown_cases huu
  have horder : t < u ↔ t / 1000000 < u / 1000000 ∨
      (t / 1000000 = u / 1000000 ∧ usecOf t < usecOf u) := by
    unfold usecOf
    omega
  rw [timestamp_lt_iff ht hu, stamptime_timestamp ht, Option.some.injEq, horder]
  generalize shown (usecOf t) = x, shown (usecOf u) = y at *
  omega

/-- The first day of 1970. -/
theorem epoch_day {n : Nat} (h : n < 86400000000) :
    FourDigits (epoch + n) ∧ usecOf (epoch + n) = n % 1000000 ∧
      (epoch + n) / 1000000 = yearStart 1970 * 86400 + n / 1000000 := by
  have hstart := civil_yearStart 1970
  unfold FourDigits usecOf daysOf epoch
  generalize yearStart 1970 = start at *
  have hday : (start * 86400000000 + n) / 86400000000 = start := by omega
  rw [hday, hstart]
  refine ⟨by decide, by omega, by omega⟩

theorem six_digits_faithful :
    (timestamp (epoch + 123456) < timestamp (epoch + 1000007) ↔ epoch + 123456 < epoch + 1000007) ∧
      stamptime (timestamp (epoch + 123456)) = some (epoch + 123456) := by
  obtain ⟨ht, husec, hsec⟩ := @epoch_day 123456 (by decide)
  obtain ⟨hu, -, hsec'⟩ := @epoch_day 1000007 (by decide)
  refine (stamp_faithful_iff _ _ ht hu).mpr (Or.inr ⟨by rw [husec]; decide, fun hsame => ?_⟩)
  rw [hsec, hsec'] at hsame
  omega

/-- 5 microseconds past the second sort behind 40, and are read as half a second. -/
theorem five_microseconds_late :
    FourDigits (epoch + 5) ∧ FourDigits (epoch + 40) ∧ epoch + 5 < epoch + 40 ∧
      ¬ timestamp (epoch + 5) < timestamp (epoch + 40) ∧
      stamptime (timestamp (epoch + 5)) = some (epoch + 500000) := by
  obtain ⟨ht, husec, -⟩ := @epoch_day 5 (by decide)
  obtain ⟨hu, -, -⟩ := @epoch_day 40 (by decide)
  refine ⟨ht, hu, by omega, ?_, ?_⟩
  · rw [← timestamp_since_epoch, ← timestamp_since_epoch]
    decide
  · have hshown : shown 5 = 500000 := rfl
    rw [stamptime_timestamp ht, husec, Nat.mod_eq_of_lt (by decide), hshown, Nat.add_sub_cancel]

end RubyQueue.Stamptime
