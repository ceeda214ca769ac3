/-
  Sorting by a relation that is an order only on the elements of the list.

  `order by` compares rows by a relation that need not be total or transitive on all rows there could
  be.  Where it agrees, on the elements of a list, with a linear order of keys that tell them apart,
  sorting by insertion gives the one list in that order, and sorting commutes with selecting.
-/
import Mathlib.Data.List.Sort
import Mathlib.Order.Defs.LinearOrder

namespace RubyQueue.Sorted

open List

variable {α κ : Type} [LinearOrder κ] {R : α → α → Prop} [DecidableRel R] {key : α → κ}
  {l : List α}

/-- On the elements of `l` the relation is the order of the keys, and the keys tell them apart. -/
structure OrderedBy (R : α → α → Prop) (key : α → κ) (l : List α) : Prop where
  iff : ∀ a ∈ l, ∀ b ∈ l, R a b ↔ key a ≤ key b
  inj : ∀ a ∈ l, ∀ b ∈ l, key a = key b → a = b

omit [DecidableRel R] in
theorem OrderedBy.subset (h : OrderedBy R key l) {k : List α} (hk : k ⊆ l) : OrderedBy R key k :=
  ⟨fun a ha b hb => h.iff a (hk ha) b (hk hb), fun a ha b hb => h.inj a (hk ha) b (hk hb)⟩

/-- The result is in the order of the keys. -/
theorem pairwise_insertionSort (h : OrderedBy R key l) :
    (l.insertionSort R).Pairwise fun a b => key a ≤ key b := by
  have hmap : (l.insertionSort R).map key = (l.map key).insertionSort (· ≤ ·) :=
    List.map_insertionSort (r := R) (s := (· ≤ ·)) key l h.iff
  have hsorted : ((l.map key).insertionSort (· ≤ ·)).Pairwise (· ≤ ·) :=
    List.pairwise_insertionSort (· ≤ ·) _
  rw [← hmap, List.pairwise_map] at hsorted
  exact hsorted

/-- And it is the only such list of these elements. -/
theorem insertionSort_eq {t : List α} (h : OrderedBy R key l)
    (ht : t.Pairwise fun a b => key a ≤ key b) (hp : t ~ l) : l.insertionSort R = t := by
  have hsort : l.insertionSort R ~ l := List.perm_insertionSort R l
  refine Perm.eq_of_pairwise ?_ (pairwise_insertionSort h) ht (hsort.trans hp.symm)
  intro a b ha hb hab hba
  exact h.inj a (hsort.subset ha) b (hp.subset hb) (le_antisymm hab hba)

/-- **Sorting commutes with selecting.** -/
theorem insertionSort_filter (h : OrderedBy R key l) (p : α → Bool) :
    (l.filter p).insertionSort R = (l.insertionSort R).filter p := by
  refine insertionSort_eq (h.subset (List.filter_subset_self l)) ?_ ?_
  · exact (pairwise_insertionSort h).sublist filter_sublist
  · exact (List.perm_insertionSort R l).filter p

/-- An element with the smaller key stands first. -/
theorem pair_sublist (h : OrderedBy R key l) {a b : α} (ha : a ∈ l) (hb : b ∈ l)
    (hlt : key a < key b) : [a, b] <+ l.insertionSort R := by
  have hsorted := pairwise_insertionSort h
  obtain ⟨xs, ys, hxy⟩ := List.append_of_mem ((List.mem_insertionSort R).mpr ha)
  have hmem : b ∈ xs ++ a :: ys := hxy ▸ (List.mem_insertionSort R).mpr hb
  rw [hxy] at hsorted ⊢
  -- it does not stand before `a`, and is not `a`
  have hys : b ∈ ys := by
    rcases List.mem_append.mp hmem with hxs | hcons
    · have hle := (List.pairwise_append.mp hsorted).2.2 b hxs a List.mem_cons_self
      exact absurd hlt (not_lt_of_ge hle)
    · rcases List.mem_cons.mp hcons with rfl | hys
      · exact absurd hlt (lt_irrefl _)
      · exact hys
  exact ((List.singleton_sublist.mpr hys).cons_cons a).trans (List.sublist_append_right xs _)

end RubyQueue.Sorted
