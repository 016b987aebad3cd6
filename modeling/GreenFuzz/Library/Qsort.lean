import Mathlib.Data.List.Sort
import Mathlib.Tactic.Common

/-!
# Sorting with a comparison function

`qsort` takes a comparison function that returns a negative, a zero or a positive number. It
promises an order only where the function is consistent on the elements (`Consistent`), and
it does not say in which order equal elements come. So a `Qsort` is any function that leaves the
elements of such a list in order; insertion sort is one (`insertionQsort`).

A function that returns the difference of two keys sorts by the key (`Qsort.sorted_key`). **A list
that is sorted as a whole and then again in its first part keeps the first part before the rest**
(`Qsort.front_before_rest`).
-/

set_option autoImplicit false

namespace GreenFuzz.Library

section

variable {α : Type}

/-- A comparison function orders the elements of a list. -/
structure Consistent (compare : α → α → ℤ) (l : List α) : Prop where
  flip : ∀ a ∈ l, ∀ b ∈ l, compare a b < 0 ↔ 0 < compare b a
  trans : ∀ a ∈ l, ∀ b ∈ l, ∀ c ∈ l, compare a b ≤ 0 → compare b c ≤ 0 → compare a c ≤ 0

/-- The comparison of numbers by their difference. -/
theorem Consistent.of_key {compare : α → α → ℤ} {l : List α} {key : α → ℤ}
    (difference : ∀ a ∈ l, ∀ b ∈ l, compare a b = key a - key b) : Consistent compare l where
  flip := by
    intro a left b right
    rw [difference a left b right, difference b right a left]
    omega
  trans := by
    intro a left b middle c right below above
    rw [difference a left b middle] at below
    rw [difference b middle c right] at above
    rw [difference a left c right]
    omega

theorem Consistent.total {compare : α → α → ℤ} {l : List α} (consistent : Consistent compare l)
    {a b : α} (left : a ∈ l) (right : b ∈ l) : compare a b ≤ 0 ∨ compare b a ≤ 0 := by
  by_cases below : compare a b ≤ 0
  · exact Or.inl below
  · exact Or.inr ((consistent.flip b right a left).mpr (not_le.mp below)).le

end

/-- A sorting function of the standard library. -/
structure Qsort where
  sort : {α : Type} → (α → α → ℤ) → List α → List α
  perm : ∀ {α : Type} {compare : α → α → ℤ} {l : List α}, Consistent compare l →
    (sort compare l).Perm l
  sorted : ∀ {α : Type} {compare : α → α → ℤ} {l : List α}, Consistent compare l →
    (sort compare l).Pairwise fun a b => compare a b ≤ 0

namespace Qsort

variable {α : Type} (Q : Qsort) {compare : α → α → ℤ} {l : List α} {key : α → ℤ}

/-- A list sorted by a key. -/
theorem sorted_key (difference : ∀ a ∈ l, ∀ b ∈ l, compare a b = key a - key b) :
    (Q.sort compare l).Pairwise fun a b => key a ≤ key b := by
  have consistent := Consistent.of_key difference
  refine (Q.sorted consistent).imp_of_mem fun {a b} left right below => ?_
  rw [difference a ((Q.perm consistent).mem_iff.mp left) b
    ((Q.perm consistent).mem_iff.mp right)] at below
  omega

/-- Sorting the first part of a list keeps it before the rest. -/
theorem front_before_rest {R : α → α → Prop} (sorted : l.Pairwise R) {n : ℕ}
    (consistent : Consistent compare (l.take n)) :
    ∀ a ∈ Q.sort compare (l.take n), ∀ b ∈ l.drop n, R a b := by
  rw [← List.take_append_drop n l, List.pairwise_append] at sorted
  intro a front b rest
  exact sorted.2.2 a ((Q.perm consistent).mem_iff.mp front) b rest

end Qsort

/-! ## Insertion sort -/

/-- Insertion sort sorts where the comparison function is consistent on the elements. -/
theorem pairwise_insertionSort_of_consistent {α : Type} {compare : α → α → ℤ} {l : List α}
    (consistent : Consistent compare l) :
    (l.insertionSort fun a b => compare a b ≤ 0).Pairwise fun a b => compare a b ≤ 0 := by
  let below : {a // a ∈ l} → {a // a ∈ l} → Prop := fun a b => compare a.1 b.1 ≤ 0
  have total : Std.Total below := ⟨fun a b => consistent.total a.2 b.2⟩
  have trans : IsTrans _ below := ⟨fun a b c => consistent.trans a.1 a.2 b.1 b.2 c.1 c.2⟩
  have sorted := List.pairwise_insertionSort below l.attach
  have same := List.map_insertionSort below (fun a b => compare a b ≤ 0) Subtype.val l.attach
    fun a _ b _ => Iff.rfl
  rw [List.attach_map_subtype_val] at same
  rw [← same, List.pairwise_map]
  exact sorted

/-- Insertion sort. -/
def insertionQsort : Qsort where
  sort compare l := l.insertionSort fun a b => compare a b ≤ 0
  perm _ := List.perm_insertionSort _ _
  sorted consistent := pairwise_insertionSort_of_consistent consistent

end GreenFuzz.Library
