/-
  Loops that may raise.

  A Ruby `each` or `map` whose block raises stops there; its model is `foldlM` or `mapM` in
  `Except ε`.  These are the rules for the runs that do NOT raise:

  * `bind_eq_ok`          — a sequence returns when both its halves do;
  * `forall₂_of_mapM_ok`  — a `map` returns what the block makes of each element, in order;
  * `exists_of_mapM_ok`   — so every element of the result comes from one of the list;
  * `mapM_ok_iff`         — and it returns when the block does for each element;
  * `mapM_ok_map_iff`     — namely the images, when those are what the block returns;
  * `foldlM_rule`         — what each step of a loop keeps is kept by the loop.
-/
import Mathlib.Data.List.Forall2

namespace RubyQueue.Raise

universe u v w

variable {ε : Type u} {α : Type v} {β : Type w}

theorem bind_eq_ok {α β : Type v} {x : Except ε α} {f : α → Except ε β} {b : β} :
    x >>= f = .ok b ↔ ∃ a, x = .ok a ∧ f a = .ok b := by
  cases x with
  | error e =>
    constructor
    · intro h
      cases h
    · rintro ⟨a, h, -⟩
      cases h
  | ok a =>
    constructor
    · intro h
      exact ⟨a, rfl, h⟩
    · rintro ⟨a', h, hf⟩
      obtain rfl := Except.ok.inj h
      exact hf

theorem of_toOption_eq_some {x : Except ε α} {a : α} (h : x.toOption = some a) : x = .ok a := by
  cases x with
  | error e => cases h
  | ok b => exact congrArg Except.ok (Option.some.inj h)

/-- The elements of a list and what `mapM` makes of them, side by side. -/
theorem forall₂_of_mapM_ok {f : α → Except ε β} :
    ∀ {xs : List α} {ys : List β}, xs.mapM f = .ok ys → List.Forall₂ (fun x y => f x = .ok y) xs ys
  | [], ys, h => by
    obtain rfl : [] = ys := by simpa [pure, Except.pure] using h
    exact .nil
  | x :: xs, ys, h => by
    rw [List.mapM_cons] at h
    obtain ⟨y, hx, h⟩ := bind_eq_ok.mp h
    obtain ⟨ys', hxs, h⟩ := bind_eq_ok.mp h
    obtain rfl := Except.ok.inj h
    exact .cons hx (forall₂_of_mapM_ok hxs)

theorem mem_of_forall₂ {R : α → β → Prop} {xs : List α} {ys : List β}
    (h : List.Forall₂ R xs ys) {y : β} (hy : y ∈ ys) : ∃ x ∈ xs, R x y := by
  induction h with
  | nil => cases hy
  | cons hxy _ ih =>
    rcases List.mem_cons.mp hy with rfl | hy
    · exact ⟨_, List.mem_cons_self, hxy⟩
    · obtain ⟨x, hx, hR⟩ := ih hy
      exact ⟨x, List.mem_cons_of_mem _ hx, hR⟩

/-- What `mapM` returns comes from its elements. -/
theorem exists_of_mapM_ok {f : α → Except ε β} {xs : List α} {ys : List β}
    (h : xs.mapM f = .ok ys) {y : β} (hy : y ∈ ys) : ∃ x ∈ xs, f x = .ok y :=
  mem_of_forall₂ (forall₂_of_mapM_ok h) hy

/-- `mapM` returns when the block returns for each element. -/
theorem mapM_ok_iff {f : α → Except ε β} : ∀ {xs : List α},
    (∃ ys, xs.mapM f = .ok ys) ↔ ∀ x ∈ xs, ∃ y, f x = .ok y
  | [] => ⟨fun _ x hx => absurd hx List.not_mem_nil, fun _ => ⟨[], rfl⟩⟩
  | x :: xs => by
    rw [List.forall_mem_cons, List.mapM_cons, ← mapM_ok_iff]
    constructor
    · rintro ⟨ys, h⟩
      obtain ⟨y, hx, h⟩ := bind_eq_ok.mp h
      obtain ⟨ys', hxs, -⟩ := bind_eq_ok.mp h
      exact ⟨⟨y, hx⟩, ys', hxs⟩
    · rintro ⟨⟨y, hx⟩, ys, hxs⟩
      rw [hx, hxs]
      exact ⟨y :: ys, rfl⟩

theorem mapM_ok_map_iff {f : α → Except ε β} {g : α → β} : ∀ {xs : List α},
    xs.mapM f = .ok (xs.map g) ↔ ∀ x ∈ xs, f x = .ok (g x)
  | [] => ⟨fun _ x hx => absurd hx List.not_mem_nil, fun _ => rfl⟩
  | x :: xs => by
    rw [List.forall_mem_cons, List.mapM_cons, ← mapM_ok_map_iff, List.map_cons]
    constructor
    · intro h
      obtain ⟨y, hx, h⟩ := bind_eq_ok.mp h
      obtain ⟨ys, hxs, h⟩ := bind_eq_ok.mp h
      obtain ⟨rfl, rfl⟩ := List.cons.inj (Except.ok.inj h)
      exact ⟨hx, hxs⟩
    · rintro ⟨hx, hxs⟩
      rw [hx, hxs]
      rfl

/-- **The rule of a loop.**  What `foldlM` keeps at each step it keeps at the end. -/
theorem foldlM_rule {σ : Type w} {f : σ → α → Except ε σ} {I : σ → Prop} :
    ∀ {xs : List α} {s t : σ}, (∀ x ∈ xs, ∀ s t, I s → f s x = .ok t → I t) →
      I s → xs.foldlM f s = .ok t → I t
  | [], s, t, _, hi, h => by
    obtain rfl := Except.ok.inj h
    exact hi
  | x :: xs, s, t, hs, hi, h => by
    rw [List.foldlM_cons] at h
    obtain ⟨s', hx, h⟩ := bind_eq_ok.mp h
    exact foldlM_rule (fun y hy => hs y (List.mem_cons_of_mem _ hy))
      (hs x List.mem_cons_self s s' hi hx) h

end RubyQueue.Raise
