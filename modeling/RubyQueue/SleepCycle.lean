/-
  The sleep cycles of the locking protocol: `SleepCycle`, an array of waits that `next` goes round.

  The constructor takes its three numbers as floats, checks them, pushes `min`, `min + inc`, … while
  they do not exceed `max`, and raises the last one to `max`.  All of this is done in double
  precision, by the rules of `Binary64`.

  The checks refuse an increment larger than the range.  They let one pass that is not positive, or
  that is lost in the rounding of `s += @inc`, and the fill loop then never ends; and one that takes
  the rounded `min + inc` past `max`, and then `min` itself is overwritten.  (The class of the same
  name in `lockfile.rb` refuses an increment that is not positive.)

  Parts: the class; the fill loop, whose lists are `steps`, and when it ends; the patched list;
  increments of one or more; `next`, by a lemma on where its index is after `n` calls; the main result.
-/
import Mathlib.Logic.Function.Iterate
import RubyQueue.Base.Binary64
import RubyQueue.Base.Loop

namespace RubyQueue

open RubyQueue.Loop RubyQueue.Binary64

/-! ## The class -/

/-- A `SleepCycle`: the array, and the index of the element `next` returns. -/
structure SleepCycle where
  self : List Double
  idx : Nat
  deriving DecidableEq

namespace SleepCycle

/-- `Float(x)`. -/
def float (q : ℚ) : Double := .num (ofRat q)

/-- `SleepCycle#reset`. -/
def reset (sc : SleepCycle) : SleepCycle := { sc with idx := 0 }

/-- `SleepCycle#next`. -/
def next (sc : SleepCycle) : Except String (Option Double × SleepCycle) :=
  let ret := sc.self[sc.idx]?
  if sc.self.length = 0 then .error "divided by 0"
  else .ok (ret, { sc with idx := (sc.idx + 1) % sc.self.length })

/-- `n` calls of `next`. -/
def nexts : Nat → SleepCycle → Except String (List (Option Double) × SleepCycle)
  | 0, sc => .ok ([], sc)
  | n + 1, sc => do
    let (ret, sc) ← next sc
    let (rets, sc) ← nexts n sc
    .ok (ret :: rets, sc)

/-- The checks of `initialize`. -/
def checks (min max inc : Double) : Except String Unit :=
  let range := max - min
  if max < min then .error "max < min"
  else if range < inc then .error "inc > range"
  else .ok ()

/-- `push(s) and s += @inc`, on the array and `s`. -/
def fill (inc : Double) (st : List Double × Double) : List Double × Double :=
  (st.1 ++ [st.2], st.2 + inc)

/-- `self[-1] = @max if self[-1] < @max`. -/
def patch (max : Double) (self : List Double) : Except String (List Double) :=
  match self.getLast? with
  | none => .error "undefined method `<' for nil"
  | some last => .ok (if last < max then self.set (self.length - 1) max else self)

/-- The end of `initialize`: the patch and `reset`, once the loop has stopped. -/
def finish (max : Double) : Option (List Double × Double) → Except String (Option SleepCycle)
  | none => .ok none
  | some (self, _) => do
    let self ← patch max self
    .ok (some (reset { self := self, idx := 0 }))

/-- `initialize` on the floats, waited for through `fuel` rounds of its loop (`none`: still in it). -/
def fromFloats (fuel : Nat) (min max inc : Double) : Except String (Option SleepCycle) := do
  checks min max inc
  finish max (run (fun st => st.2 ≤ max) (fill inc) fuel ([], min))

/-- `SleepCycle#initialize`. -/
def new (fuel : Nat) (min max inc : ℚ) : Except String (Option SleepCycle) :=
  fromFloats fuel (float min) (float max) (float inc)

example : new 9 2 16 2 = .ok (some ⟨[2, 4, 6, 8, 10, 12, 14, 16].map float, 0⟩) := by decide +kernel

section Floats

variable {min max inc : Double}

theorem checks_eq_ok : checks min max inc = .ok () ↔ ¬ max < min ∧ ¬ max - min < inc := by
  unfold checks
  by_cases h : max < min
  · simp [h]
  · by_cases h' : max - min < inc <;> simp [h, h']

/-! ## The fill loop -/

/-- `s` after `k` rounds. -/
def nth (min inc : Double) (k : Nat) : Double := (· + inc)^[k] min

@[simp] theorem nth_zero : nth min inc 0 = min := rfl

theorem nth_succ (k : Nat) : nth min inc (k + 1) = nth min inc k + inc :=
  Function.iterate_succ_apply' (· + inc) k min

/-- The first `n` values of `s`. -/
def steps (min inc : Double) (n : Nat) : List Double := (List.range n).map (nth min inc)

theorem steps_succ (n : Nat) : steps min inc (n + 1) = steps min inc n ++ [nth min inc n] := by
  simp [steps, List.range_succ]

theorem mem_steps {x : Double} {n : Nat} :
    x ∈ steps min inc n ↔ ∃ k, k < n ∧ nth min inc k = x := by
  simp [steps]

/-- What a state of the loop is: the steps taken so far, none beyond `max`. -/
def Filled (min max inc : Double) (st : List Double × Double) : Prop :=
  ∃ n : Nat, st = (steps min inc n, nth min inc n) ∧ ∀ k, k < n → nth min inc k ≤ max

theorem filled_start : Filled min max inc ([], min) :=
  ⟨0, rfl, fun _ hk => absurd hk (Nat.not_lt_zero _)⟩

theorem filled_fill {st : List Double × Double} (h : Filled min max inc st) (hc : st.2 ≤ max) :
    Filled min max inc (fill inc st) := by
  obtain ⟨n, rfl, hle⟩ := h
  refine ⟨n + 1, by simp only [fill, steps_succ, nth_succ], fun k hk => ?_⟩
  rcases Nat.lt_succ_iff_lt_or_eq.mp hk with hk | rfl
  · exact hle k hk
  · exact hc

/-- **What an increment has to do**: the first step stays in the range, and no double of the range is
    left where it is when the increment is added to it. -/
structure Advances (min max inc : Double) : Prop where
  first : min + inc ≤ max
  moves : ∀ x, min ≤ x → x ≤ max → x < x + inc

/-! ## Does it end? -/

/-- Adding moves nothing that is infinite. -/
theorem finite_of_moves {x : Double} (h : x < x + inc) : ∃ a : Finite, x = .num (.fin a) := by
  match x, inc with
  | .nan, _ => exact h.elim
  | .num (.fin a), _ => exact ⟨a, rfl⟩
  | .num ⊥, .nan => exact absurd h (Double.not_lt_nan _)
  | .num ⊤, .nan => exact absurd h (Double.not_lt_nan _)
  | .num ⊤, .num y =>
    obtain ⟨a, b, ha, -, hlt⟩ := Double.lt_cases h
    obtain rfl := Double.num.inj ha
    exact absurd hlt not_top_lt
  | .num ⊥, .num y =>
    have hadd : Double.num ⊥ + .num y = if y = ⊤ then .nan else .num ⊥ := rfl
    rw [hadd] at h
    split at h
    · exact absurd h (Double.not_lt_nan _)
    · exact absurd h (lt_irrefl (⊥ : Extended))

/-- The doubles from `s` to `max`, counted in the smallest unit. -/
def room : Double → Double → Nat
  | .num (.fin max), .num (.fin s) => (units max - units s + 1).toNat
  | _, _ => 0

/-- A round that moves on leaves fewer of them. -/
theorem room_lt {a b : Finite} {t : Double} (hle : a ≤ b) (h : .num (.fin a) < t) :
    room (.num (.fin b)) t < room (.num (.fin b)) (.num (.fin a)) := by
  have hab : units a ≤ units b := by
    rcases hle.eq_or_lt with rfl | hlt
    · exact le_rfl
    · exact (units_lt hlt).le
  match t with
  | .nan => exact absurd h (Double.not_lt_nan _)
  | .num ⊥ =>
    show 0 < (units b - units a + 1).toNat
    omega
  | .num ⊤ =>
    show 0 < (units b - units a + 1).toNat
    omega
  | .num (.fin c) =>
    have hac : units a < units c := units_lt (WithTop.coe_lt_coe.mp (WithBot.coe_lt_coe.mp h))
    show (units b - units c + 1).toNat < (units b - units a + 1).toNat
    omega

theorem loop_ends (h : Advances min max inc) (hle : min ≤ max) :
    ∃ fuel st, run (fun st => st.2 ≤ max) (fill inc) fuel ([], min) = some st := by
  obtain ⟨b, rfl⟩ := finite_of_moves (h.moves max hle (Double.le_self_right hle))
  refine run_ends (I := fun st => min ≤ st.2) (fun st => room (.num (.fin b)) st.2)
    (fun st hs hc => ?_) (fun st hs hc => ?_) (Double.le_self_left hle)
  · have hmove := h.moves st.2 hs (by simpa using hc)
    exact Double.le_of_lt (Double.lt_of_le_of_lt hs hmove)
  · have hc : st.2 ≤ .num (.fin b) := by simpa using hc
    have hmove := h.moves st.2 hs hc
    obtain ⟨a, ha⟩ := finite_of_moves hmove
    rw [ha] at hc hmove
    show room _ (st.2 + inc) < room _ st.2
    rw [ha]
    exact room_lt (WithTop.coe_le_coe.mp (WithBot.coe_le_coe.mp hc)) hmove

/-- A double of the range that adding leaves where it is, or puts back, is a bound of all later ones:
    the loop condition stays true. -/
theorem loop_never_finite {i : Finite} {x : Double} (hmin : min ≤ x) (hmax : x ≤ max)
    (hstuck : ¬ x < x + .num (.fin i)) (fuel : Nat) :
    run (fun st => st.2 ≤ max) (fill (.num (.fin i))) fuel ([], min) = none := by
  obtain ⟨m, a, rfl, rfl, hma⟩ := Double.le_cases hmin
  obtain ⟨_, b, ha, rfl, hab⟩ := Double.le_cases hmax
  obtain rfl := Double.num.inj ha
  rw [add_finite] at hstuck
  have hstuck : plus i a ≤ a := not_lt.mp hstuck
  refine run_never (I := fun st : List Double × Double => ∃ s, st.2 = .num s ∧ s ≤ a)
    (fun st hs => ?_) (fun st hs => ?_) ⟨m, rfl, hma⟩ fuel
  · obtain ⟨s, hst, hsa⟩ := hs
    refine ⟨plus i s, ?_, (plus_mono i hsa).trans hstuck⟩
    show st.2 + _ = _
    rw [hst, add_finite]
  · obtain ⟨s, hst, hsa⟩ := hs
    have hle : s ≤ b := hsa.trans hab
    simpa [hst] using hle

/-- An infinite increment leads to the infinity at once, and there it stays. -/
theorem loop_never_infinite {j : Extended} (hj : j = ⊥ ∨ j = ⊤) (hle : min ≤ max)
    (hfirst : min + .num j ≤ max) (fuel : Nat) :
    run (fun st => st.2 ≤ max) (fill (.num j)) fuel ([], min) = none := by
  have hjj : Double.num j + .num j = .num j := by rcases hj with rfl | rfl <;> rfl
  have hadd : min + .num j = .num j := by
    obtain ⟨m, -, rfl, -, -⟩ := Double.le_cases hle
    obtain ⟨s, -, hs, -, -⟩ := Double.le_cases hfirst
    match m, j, hj with
    | ⊥, ⊥, _ => rfl
    | ⊤, ⊤, _ => rfl
    | .fin _, ⊥, _ => rfl
    | .fin _, ⊤, _ => rfl
    | ⊥, ⊤, _ => cases hs
    | ⊤, ⊥, _ => cases hs
    | _, .fin _, hj => simp at hj
  rw [hadd] at hfirst
  refine run_never (I := fun st : List Double × Double => st.2 = min ∨ st.2 = .num j)
    (fun st hs => Or.inr ?_) (fun st hs => ?_) (Or.inl rfl) fuel
  · show st.2 + .num j = .num j
    rcases hs with hs | hs
    · rw [hs, hadd]
    · rw [hs, hjj]
  · rcases hs with hs | hs
    · simpa [hs] using hle
    · simpa [hs] using hfirst

/-- **A stuck double keeps the loop going**, once the first step is in the range. -/
theorem loop_never {j : Extended} {x : Double} (hmin : min ≤ x) (hmax : x ≤ max)
    (hfirst : min + .num j ≤ max) (hstuck : ¬ x < x + .num j) (fuel : Nat) :
    run (fun st => st.2 ≤ max) (fill (.num j)) fuel ([], min) = none :=
  match j with
  | .fin _ => loop_never_finite hmin hmax hstuck fuel
  | ⊥ => loop_never_infinite (Or.inl rfl) (Double.le_trans hmin hmax) hfirst fuel
  | ⊤ => loop_never_infinite (Or.inr rfl) (Double.le_trans hmin hmax) hfirst fuel

/-! ## The list -/

/-- The list of a cycle: what the locking protocol counts on. -/
structure Bounded (min max : Double) (l : List Double) : Prop where
  nonempty : l ≠ []
  increasing : l.Pairwise (· < ·)
  head : l.head? = some min
  last : l.getLast? = some max
  within : ∀ x ∈ l, min ≤ x ∧ x ≤ max

theorem min_le_nth (h : Advances min max inc) (hself : min ≤ min) {n : Nat}
    (hn : ∀ k, k < n → nth min inc k ≤ max) : ∀ k, k ≤ n → min ≤ nth min inc k
  | 0, _ => hself
  | k + 1, hk => by
    have hprev := min_le_nth h hself hn k (Nat.le_of_succ_le hk)
    rw [nth_succ]
    exact Double.le_of_lt (Double.lt_of_le_of_lt hprev (h.moves _ hprev (hn k hk)))

/-- The values of `s` go up, as long as they are in the range. -/
theorem nth_lt (h : Advances min max inc) (hself : min ≤ min) {n : Nat}
    (hn : ∀ k, k < n → nth min inc k ≤ max) {a : Nat} :
    ∀ {b : Nat}, a < b → b ≤ n → nth min inc a < nth min inc b
  | b + 1, hab, hb => by
    have hmove : nth min inc b < nth min inc (b + 1) := by
      rw [nth_succ]
      exact h.moves _ (min_le_nth h hself hn b (Nat.le_of_succ_le hb)) (hn b hb)
    rcases Nat.lt_succ_iff_lt_or_eq.mp hab with hab | rfl
    · exact Double.lt_of_le_of_lt
        (Double.le_of_lt (nth_lt h hself hn hab (Nat.le_of_succ_le hb))) hmove
    · exact hmove

theorem steps_head (n : Nat) : (steps min inc (n + 1)).head? = some min := by
  simp [steps, List.range_succ_eq_map]

/-- All steps but the last, then `max`. -/
theorem patch_steps {n : Nat} (hle : nth min inc n ≤ max) :
    patch max (steps min inc (n + 1)) = .ok (steps min inc n ++ [max]) := by
  have hlast : (steps min inc (n + 1)).getLast? = some (nth min inc n) := by
    rw [steps_succ, List.getLast?_concat]
  simp only [patch, hlast]
  split
  · simp [steps_succ]
  · next h => rw [steps_succ, Double.eq_of_le_of_not_lt hle h]

theorem bounded_steps (h : Advances min max inc) (hself : min ≤ min) {n : Nat}
    (hn : ∀ k, k < n + 2 → nth min inc k ≤ max) :
    Bounded min max (steps min inc (n + 1) ++ [max]) := by
  have hlast : nth min inc (n + 1) ≤ max := hn (n + 1) (Nat.lt_succ_self _)
  have hbelow : ∀ x ∈ steps min inc (n + 1), min ≤ x ∧ x < max := by
    intro x hx
    obtain ⟨k, hk, rfl⟩ := mem_steps.mp hx
    have hup := nth_lt h hself hn hk (Nat.le_succ _)
    exact ⟨min_le_nth h hself hn k (by omega), Double.lt_of_lt_of_le hup hlast⟩
  refine ⟨by simp, ?_, ?_, by simp, ?_⟩
  · refine List.pairwise_append.mpr ⟨?_, List.pairwise_singleton _ _, ?_⟩
    · unfold steps
      rw [List.pairwise_map]
      refine List.pairwise_lt_range.imp_of_mem fun {a b} _ hb hab => ?_
      exact nth_lt h hself hn hab (by have := List.mem_range.mp hb; omega)
    · intro x hx y hy
      obtain rfl := List.mem_singleton.mp hy
      exact (hbelow x hx).2
  · rw [List.head?_append, steps_head]
    rfl
  · intro x hx
    rcases List.mem_append.mp hx with hx | hx
    · exact ⟨(hbelow x hx).1, Double.le_of_lt (hbelow x hx).2⟩
    · obtain rfl := List.mem_singleton.mp hx
      exact ⟨Double.le_trans (min_le_nth h hself hn (n + 1) (Nat.le_succ _)) hlast,
        Double.le_self_right hlast⟩

/-- The loop stops with at least two steps, so that the patch leaves `min` in place. -/
theorem filled_patch (h : Advances min max inc) (hle : min ≤ max) {st : List Double × Double}
    (hst : Filled min max inc st) (hc : ¬ st.2 ≤ max) :
    ∃ self, patch max st.1 = .ok self ∧ Bounded min max self := by
  obtain ⟨n, rfl, hn⟩ := hst
  match n, hn, hc with
  | 0, _, hc => exact absurd hle hc
  | 1, _, hc => exact absurd h.first hc
  | n + 2, hn, _ =>
    exact ⟨_, patch_steps (hn (n + 1) (Nat.lt_succ_self _)),
      bounded_steps h (Double.le_self_left hle) hn⟩

end Floats

/-! ## Increments that advance -/

/-- An increment of one or more passes a whole number, and a double holds whole numbers exactly. -/
theorem moves_of_one_le {a i : Finite} (hi : 1 ≤ (i : ℚ)) (ha : |(a : ℚ)| < 2 ^ 53 - 1) :
    Double.num (.fin a) < .num (.fin a) + .num (.fin i) := by
  obtain ⟨hlow, hhigh⟩ := abs_lt.mp ha
  have hfloor := Int.floor_le (a : ℚ)
  have hnext := Int.lt_floor_add_one (a : ℚ)
  have hbig : |⌊(a : ℚ)⌋ + 1| < 2 ^ 53 := by
    have hlow : -(2 ^ 53 : ℚ) < ⌊(a : ℚ)⌋ + 1 := by linarith
    have hhigh : (⌊(a : ℚ)⌋ + 1 : ℚ) < 2 ^ 53 := by linarith
    exact abs_lt.mpr ⟨by exact_mod_cast hlow, by exact_mod_cast hhigh⟩
  have hround := round_intCast hbig
  have hfin : IsFinite ((⌊(a : ℚ)⌋ + 1 : ℤ) : ℚ) := by
    refine ⟨hround, ?_⟩
    have : |((⌊(a : ℚ)⌋ + 1 : ℤ) : ℚ)| < 2 ^ 53 := by exact_mod_cast hbig
    exact this.trans_le (pow_le_pow_right₀ one_le_two (by norm_num))
  rw [add_finite]
  refine lt_of_lt_of_le ?_ (le_plus (z := ⟨_, hfin⟩) ?_)
  · refine WithBot.coe_lt_coe.mpr (WithTop.coe_lt_coe.mpr ?_)
    show (a : ℚ) < ((⌊(a : ℚ)⌋ + 1 : ℤ) : ℚ)
    push_cast
    exact hnext
  · push_cast
    linarith

/-- Doubles that are finite, from one to the other. -/
theorem between_finite {m n : Finite} {x : Double} (hmin : .num (.fin m) ≤ x)
    (hmax : x ≤ .num (.fin n)) : ∃ a : Finite, x = .num (.fin a) ∧ m ≤ a ∧ a ≤ n := by
  obtain ⟨_, y, hm, rfl, hmy⟩ := Double.le_cases hmin
  obtain rfl := Double.num.inj hm
  match y, hmy, hmax with
  | ⊤, _, hmax => exact absurd hmax (not_le.mpr (WithBot.coe_lt_coe.mpr (WithTop.coe_lt_top n)))
  | .fin a, hmy, hmax =>
    exact ⟨a, rfl, WithTop.coe_le_coe.mp (WithBot.coe_le_coe.mp hmy),
      WithTop.coe_le_coe.mp (WithBot.coe_le_coe.mp hmax)⟩

/-- Ordinary waits with steps of a second or more do advance. -/
theorem advances_of_one_le {m n i : Finite} (hi : 1 ≤ (i : ℚ)) (hm : 0 ≤ (m : ℚ))
    (hn : (n : ℚ) < 2 ^ 53 - 1) (hfirst : (m + i : ℚ) ≤ n) :
    Advances (.num (.fin m)) (.num (.fin n)) (.num (.fin i)) := by
  refine ⟨?_, fun x hmin hmax => ?_⟩
  · rw [add_finite, ← ofRat_finite n]
    exact ofRat_mono hfirst
  · obtain ⟨a, rfl, hma, han⟩ := between_finite hmin hmax
    have hma : (m : ℚ) ≤ a := hma
    have han : (a : ℚ) ≤ n := han
    exact moves_of_one_le hi (abs_lt.mpr ⟨by linarith, by linarith⟩)

theorem float_of_isFinite {q : ℚ} (h : IsFinite q) : float q = .num (.fin ⟨q, h⟩) :=
  congrArg Double.num (ofRat_finite ⟨q, h⟩)

/-! ## `next` -/

/-- `next` returns the elements in order, round and round. -/
def Cyclic (sc : SleepCycle) : Prop :=
  ∀ idx n, ∃ rets sc', nexts n (reset { sc with idx := idx }) = .ok (rets, sc') ∧
    rets.length = n ∧
    ∀ k, k < n → ∃ x, sc.self[k % sc.self.length]? = some x ∧ rets[k]? = some (some x)

theorem nexts_spec {self : List Double} (hne : 0 < self.length) : ∀ (n i : Nat), ∃ rets sc',
    nexts n ⟨self, i % self.length⟩ = .ok (rets, sc') ∧ rets.length = n ∧
    ∀ k, k < n → rets[k]? = some self[(i + k) % self.length]?
  | 0, i => ⟨[], _, rfl, rfl, fun _ hk => absurd hk (Nat.not_lt_zero _)⟩
  | n + 1, i => by
    obtain ⟨rets, sc', h, hlen, hrets⟩ := nexts_spec hne n (i + 1)
    have hnext : next ⟨self, i % self.length⟩
        = .ok (self[i % self.length]?, ⟨self, (i + 1) % self.length⟩) := by
      simp [next, Nat.ne_of_gt hne]
    refine ⟨self[i % self.length]? :: rets, sc', ?_, by simp [hlen], ?_⟩
    · simp only [nexts, hnext]
      show (do let (rets, sc) ← nexts n ⟨self, (i + 1) % self.length⟩
               Except.ok (self[i % self.length]? :: rets, sc)) = _
      rw [h]
      rfl
    · intro k hk
      cases k with
      | zero => simp
      | succ k =>
        have hk' := hrets k (Nat.lt_of_succ_lt_succ hk)
        simpa [Nat.add_right_comm, Nat.add_assoc, Nat.add_comm 1 k] using hk'

theorem cyclic_of_nonempty {sc : SleepCycle} (hne : sc.self ≠ []) : Cyclic sc := by
  intro idx n
  have hpos : 0 < sc.self.length := List.length_pos_of_ne_nil hne
  obtain ⟨rets, sc', h, hlen, hrets⟩ := nexts_spec hpos n 0
  refine ⟨rets, sc', by simpa [reset] using h, hlen, fun k hk => ?_⟩
  have hlt : k % sc.self.length < sc.self.length := Nat.mod_lt _ hpos
  refine ⟨_, List.getElem?_eq_getElem hlt, ?_⟩
  have hk' := hrets k hk
  rwa [Nat.zero_add, List.getElem?_eq_getElem hlt] at hk'

/-! ## The main result -/

/-- The constructor comes back, always with the same cycle, and the cycle is as it should be. -/
def Sound (min max inc : ℚ) : Prop :=
  ∃ sc, (∃ fuel, new fuel min max inc = .ok (some sc)) ∧
    (∀ fuel sc', new fuel min max inc = .ok (some sc') → sc' = sc) ∧
    Bounded (float min) (float max) sc.self ∧ Cyclic sc

section Rationals

variable {min max inc : ℚ}

/-- Where the checks pass, `initialize` is the loop and the patch. -/
theorem new_of_checks (h : checks (float min) (float max) (float inc) = .ok ()) (fuel : Nat) :
    new fuel min max inc = finish (float max)
      (run (fun st => st.2 ≤ float max) (fill (float inc)) fuel ([], float min)) := by
  rw [new, fromFloats, h]
  rfl

theorem le_of_checks (h : checks (float min) (float max) (float inc) = .ok ()) :
    float min ≤ float max := by
  have hle : ¬ ofRat max < ofRat min := (checks_eq_ok.mp h).1
  exact not_lt.mp hle

/-- Once the loop has stopped, the patch decides. -/
theorem finish_some {max : Double} {st : List Double × Double} {self : List Double}
    (h : patch max st.1 = .ok self) : finish max (some st) = .ok (some ⟨self, 0⟩) := by
  simp [finish, h, reset, bind, Except.bind]

/-- What the constructor gives when the loop stops is decided by where it stops. -/
theorem new_unique (h : checks (float min) (float max) (float inc) = .ok ()) {fuel fuel' : Nat}
    {st : List Double × Double} {self : List Double} {sc : SleepCycle}
    (hst : run (fun st => st.2 ≤ float max) (fill (float inc)) fuel ([], float min) = some st)
    (hself : patch (float max) st.1 = .ok self) (h' : new fuel' min max inc = .ok (some sc)) :
    sc = ⟨self, 0⟩ := by
  rw [new_of_checks h] at h'
  cases hst' : run (fun st => st.2 ≤ float max) (fill (float inc)) fuel' ([], float min) with
  | none => simp [finish, hst'] at h'
  | some st' =>
    rw [hst', run_unique hst' hst, finish_some hself] at h'
    simpa [eq_comm] using h'

theorem sound_of_stop (h : checks (float min) (float max) (float inc) = .ok ()) {fuel : Nat}
    {st : List Double × Double} {self : List Double}
    (hst : run (fun st => st.2 ≤ float max) (fill (float inc)) fuel ([], float min) = some st)
    (hself : patch (float max) st.1 = .ok self) (hb : Bounded (float min) (float max) self) :
    Sound min max inc := by
  refine ⟨⟨self, 0⟩, ⟨fuel, ?_⟩, fun _ _ => new_unique h hst hself, hb,
    cyclic_of_nonempty hb.nonempty⟩
  rw [new_of_checks h, hst, finish_some hself]

/-- When the loop goes on for ever, the constructor does not come back. -/
theorem not_sound_of_never (h : checks (float min) (float max) (float inc) = .ok ())
    (hnever : ∀ fuel,
      run (fun st => st.2 ≤ float max) (fill (float inc)) fuel ([], float min) = none) :
    ¬ Sound min max inc := by
  rintro ⟨sc, ⟨fuel, hsc⟩, -⟩
  rw [new_of_checks h, hnever] at hsc
  simp [finish] at hsc

/-- A first step beyond `max` ends the loop at once. -/
theorem stop_at_once (h : checks (float min) (float max) (float inc) = .ok ())
    (hfirst : ¬ float min + float inc ≤ float max) :
    run (fun st => st.2 ≤ float max) (fill (float inc)) 2 ([], float min)
      = some ([float min], float min + float inc) := by
  have hle := le_of_checks h
  simp [run, fill, hle, hfirst]

theorem patch_singleton {min max : Double} :
    patch max [min] = .ok (if min < max then [max] else [min]) := by
  simp [patch]

/-- **When the constructor of a sleep cycle does its work**: exactly when the increment advances.
    (There is one more case, the two ends the same infinity and the increment the other one.) -/
theorem sound_iff (h : checks (float min) (float max) (float inc) = .ok ()) :
    Sound min max inc ↔ Advances (float min) (float max) (float inc) ∨
      (float min = float max ∧ ¬ float min + float inc ≤ float max) := by
  have hle := le_of_checks h
  by_cases hfirst : float min + float inc ≤ float max
  · refine ⟨fun hsound => Or.inl ⟨hfirst, fun x hmin hmax => ?_⟩, ?_⟩
    · by_contra hstuck
      refine not_sound_of_never h (fun fuel => ?_) hsound
      exact loop_never hmin hmax hfirst hstuck fuel
    · rintro (hadv | ⟨-, hno⟩)
      · obtain ⟨fuel, st, hst⟩ := loop_ends hadv hle
        obtain ⟨hfilled, hstop⟩ := run_invariant (I := Filled (float min) (float max) (float inc))
          (fun st hs hc => filled_fill hs (by simpa using hc)) filled_start hst
        obtain ⟨self, hself, hb⟩ := filled_patch hadv hle hfilled (by simpa using hstop)
        exact sound_of_stop h hst hself hb
      · exact absurd hfirst hno
  · have hst := stop_at_once h hfirst
    constructor
    · rintro ⟨sc, ⟨fuel, hsc⟩, -, hb, -⟩
      refine Or.inr ⟨?_, hfirst⟩
      have hself := new_unique h hst patch_singleton hsc
      -- the patch would have put `max` in the place of `min`
      rw [hself] at hb
      by_contra hne
      have hlt : float min < float max := by
        by_contra hge
        exact hne (Double.eq_of_le_of_not_lt hle hge)
      have hhead := hb.head
      rw [if_pos hlt] at hhead
      exact hne (Option.some.inj hhead).symm
    · rintro (hadv | ⟨heq, -⟩)
      · exact absurd hadv.first hfirst
      · refine sound_of_stop h hst patch_singleton ?_
        have hno : ¬ float min < float max := by
          rw [heq]
          exact lt_irrefl (ofRat max)
        rw [if_neg hno]
        refine ⟨by simp, by simp, rfl, by simp [heq], fun x hx => ?_⟩
        obtain rfl := List.mem_singleton.mp hx
        exact ⟨Double.le_self_left hle, hle⟩

end Rationals

/-- The waits that the queue uses: 2 to 16 seconds in steps of 2. -/
theorem sound_two_sixteen : Sound 2 16 2 := by
  have hmin := float_of_isFinite (show IsFinite 2 by decide +kernel)
  have hmax := float_of_isFinite (show IsFinite 16 by decide +kernel)
  refine (sound_iff (by decide +kernel)).mpr (Or.inl ?_)
  rw [hmin, hmax]
  exact advances_of_one_le (by norm_num) (by norm_num) (by norm_num) (by norm_num)

/-- Three numbers that the checks let pass: an increment of 0, one whose first step is rounded past the
    end of the range, and one that is lost in the rounding. -/
theorem not_sound_zero :
    (checks (float 1) (float 5) (float 0) = .ok () ∧ ¬ Sound 1 5 0) ∧
    (checks (float 0.6) (float 1.7) (float 1.1) = .ok () ∧ ¬ Sound 0.6 1.7 1.1) ∧
    (checks (float (10 ^ 17)) (float (10 ^ 17 + 64)) (float 1) = .ok () ∧
      ¬ Sound (10 ^ 17) (10 ^ 17 + 64) 1) := by
  have hstuck : ∀ {min max inc : ℚ}, checks (float min) (float max) (float inc) = .ok () →
      float min + float inc ≤ float max → ¬ float min < float min + float inc →
      ¬ Sound min max inc := fun h hfirst hno =>
    not_sound_of_never h fun fuel =>
      loop_never (Double.le_self_left (le_of_checks h)) (le_of_checks h) hfirst hno fuel
  have hzero : checks (float 1) (float 5) (float 0) = .ok () := by decide +kernel
  have hpast : checks (float 0.6) (float 1.7) (float 1.1) = .ok () := by decide +kernel
  have hlost : checks (float (10 ^ 17)) (float (10 ^ 17 + 64)) (float 1) = .ok () := by
    decide +kernel
  refine ⟨⟨hzero, hstuck hzero (by decide +kernel) (by decide +kernel)⟩, ⟨hpast, ?_⟩,
    hlost, hstuck hlost (by decide +kernel) (by decide +kernel)⟩
  rintro ⟨sc, ⟨fuel, hsc⟩, -, hb, -⟩
  have hst := stop_at_once hpast (by decide +kernel)
  rw [new_unique hpast hst patch_singleton hsc] at hb
  have hhead := hb.head
  revert hhead
  decide +kernel

end SleepCycle

end RubyQueue
