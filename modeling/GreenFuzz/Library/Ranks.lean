import Mathlib.Data.List.Sort
import Mathlib.Data.List.Nodup

/-!
# Ranks in a sorted list

The rank of a key in a list is the number of keys below it. In a strictly sorted list the element
at index `k` has rank `k` (`rankIn_getElem`), and ranks do not depend on the order of a list. So
the place that a key has after sorting can be computed from the list as it was before
(`getElem?_sorted_iff`).
-/

set_option autoImplicit false

namespace GreenFuzz.Library

variable {α : Type*} [LinearOrder α] {keys sorted : List α} {a : α} {k : ℕ}

/-- The number of keys below `a`. -/
def rankIn (keys : List α) (a : α) : ℕ := keys.countP fun b => decide (b < a)

theorem rankIn_perm (same : sorted.Perm keys) (a : α) : rankIn sorted a = rankIn keys a :=
  same.countP_eq _

/-- In a strictly sorted list, as many elements are below the one at `k` as stand before it. -/
theorem rankIn_getElem (increasing : keys.Pairwise (· < ·)) (inside : k < keys.length) :
    rankIn keys keys[k] = k := by
  induction keys generalizing k with
  | nil => cases inside
  | cons first keys ih =>
      obtain ⟨least, rest⟩ := List.pairwise_cons.mp increasing
      cases k with
      | zero =>
          refine List.countP_eq_zero.mpr fun a member => ?_
          rcases List.mem_cons.mp member with rfl | later
          · simp
          · simpa using (least a later).le
      | succ k =>
          have below : k < keys.length := by simpa using inside
          have before : first < keys[k] := least _ (List.getElem_mem below)
          rw [List.getElem_cons_succ, rankIn, List.countP_cons_of_pos (by simpa using before)]
          exact congrArg (· + 1) (ih rest below)

/-- Sorting distinct keys puts each at its rank. -/
theorem getElem?_sorted_iff (increasing : sorted.Pairwise (· < ·)) (same : sorted.Perm keys)
    (member : a ∈ keys) : sorted[k]? = some a ↔ k = rankIn keys a := by
  have forward {k : ℕ} (here : sorted[k]? = some a) : k = rankIn keys a := by
    obtain ⟨below, at_k⟩ := List.getElem?_eq_some_iff.mp here
    rw [← rankIn_perm same, ← at_k, rankIn_getElem increasing below]
  refine ⟨forward, ?_⟩
  rintro rfl
  obtain ⟨k, here⟩ := List.mem_iff_getElem?.mp (same.mem_iff.mpr member)
  rwa [← forward here]

end GreenFuzz.Library
