import GreenFuzz.Instrumentation.SplitSwitches
import Mathlib.Data.List.GetD

/-!
# The bytes that the tree of a switch looks at

The pass takes a position with fewest bytes among those that were not checked (`smallest_spec`).
Either all cases have one byte there, or the pivot parts them in two (`pivot_spec`). Cases that were
checked at every position are one case (`eq_of_byteAt`).
-/

set_option autoImplicit false

namespace GreenFuzz.Instrumentation

theorem byteAt_eq (value i : ℕ) : byteAt value i = value / 2 ^ (i * 8) % 2 ^ 8 := by
  rw [byteAt, show 0xFF = 2 ^ 8 - 1 from rfl, Nat.and_two_pow_sub_one_eq_mod,
    Nat.shiftRight_eq_div_pow]

theorem byteAt_lt (value i : ℕ) : byteAt value i < 2 ^ 8 := by
  rw [byteAt_eq]
  exact Nat.mod_lt _ (by norm_num)

/-- A value is determined by its bytes. -/
theorem eq_of_byteAt {n a b : ℕ} (below : a < 2 ^ (8 * n)) (below' : b < 2 ^ (8 * n))
    (same : ∀ i < n, byteAt a i = byteAt b i) : a = b := by
  refine Nat.eq_of_testBit_eq fun j => ?_
  by_cases inside : j < 8 * n
  · have bit : ∀ value, (byteAt value (j / 8)).testBit (j % 8) = value.testBit j := by
      intro value
      have position : j % 8 + j / 8 * 8 = j := Nat.mod_add_div' j 8
      have low : j % 8 < 8 := Nat.mod_lt _ (by norm_num)
      rw [byteAt_eq, Nat.testBit_mod_two_pow, Nat.testBit_div_two_pow, position]
      simp [low]
    rw [← bit a, ← bit b, same _ (by omega)]
  · have large : 2 ^ (8 * n) ≤ 2 ^ j := Nat.pow_le_pow_right (by norm_num) (by omega)
    rw [Nat.testBit_lt_two_pow (by omega), Nat.testBit_lt_two_pow (by omega)]

/-! ## The set of bytes at a position -/

section ByteSet

variable {Cases : List (ℕ × ℕ)} {i : ℕ}

theorem mem_byteSet {byte : ℕ} :
    byte ∈ byteSet Cases i ↔ ∃ case ∈ Cases, byteAt case.1 i = byte := by
  rw [byteSet, List.mem_insertionSort, List.mem_dedup, List.mem_map]

theorem nodup_byteSet : (byteSet Cases i).Nodup :=
  (List.perm_insertionSort _ _).nodup_iff.mpr (List.nodup_dedup _)

theorem length_byteSet_le (Cases : List (ℕ × ℕ)) (i : ℕ) : (byteSet Cases i).length ≤ 256 := by
  have among : byteSet Cases i ⊆ List.range 256 := by
    intro byte member
    obtain ⟨case, _, rfl⟩ := mem_byteSet.mp member
    exact List.mem_range.mpr (byteAt_lt _ _)
  have := (nodup_byteSet.subperm among).length_le
  rwa [List.length_range] at this

/-- Where there is one byte, every case has it. -/
theorem byteAt_of_length_one (one : (byteSet Cases i).length = 1) :
    ∀ case ∈ Cases, byteAt case.1 i = (byteSet Cases i).headD 0 := by
  obtain ⟨byte, single⟩ := List.length_eq_one_iff.mp one
  intro case member
  have : byteAt case.1 i ∈ byteSet Cases i := mem_byteSet.mpr ⟨case, member, rfl⟩
  rw [single] at this ⊢
  exact List.mem_singleton.mp this

/-- Where there are more, there are cases below the pivot and cases not below. -/
theorem pivot_spec (nonempty : Cases ≠ []) (several : (byteSet Cases i).length ≠ 1) :
    (byteSet Cases i).getD ((byteSet Cases i).length / 2) 0 < 2 ^ 8 ∧
      (∃ case ∈ Cases,
        byteAt case.1 i < (byteSet Cases i).getD ((byteSet Cases i).length / 2) 0) ∧
      ∃ case ∈ Cases,
        ¬ byteAt case.1 i < (byteSet Cases i).getD ((byteSet Cases i).length / 2) 0 := by
  obtain ⟨first, member⟩ := List.exists_mem_of_ne_nil _ nonempty
  have positive : 0 < (byteSet Cases i).length :=
    List.length_pos_of_mem (mem_byteSet.mpr ⟨first, member, rfl⟩)
  have middle : (byteSet Cases i).length / 2 < (byteSet Cases i).length := by omega
  have increasing : (byteSet Cases i).Pairwise (· < ·) := by
    have sorted : (byteSet Cases i).Pairwise (· ≤ ·) := List.pairwise_insertionSort _ _
    exact (sorted.and nodup_byteSet).imp fun ⟨le, ne⟩ => lt_of_le_of_ne le ne
  have less := List.pairwise_iff_getElem.mp increasing 0 _ positive middle (by omega)
  rw [List.getD_eq_getElem _ _ middle]
  obtain ⟨low, inside, low_eq⟩ := mem_byteSet.mp (List.getElem_mem positive)
  obtain ⟨high, inside', high_eq⟩ := mem_byteSet.mp (List.getElem_mem middle)
  refine ⟨high_eq ▸ byteAt_lt _ _, ⟨low, inside, low_eq ▸ less⟩, high, inside', ?_⟩
  rw [high_eq]
  exact Nat.lt_irrefl _

end ByteSet

/-! ## The position -/

/-- The fold finds a position that was not checked, or stays with what it had. -/
theorem smallest_fold (Cases : List (ℕ × ℕ)) (bytesChecked : List Bool) (positions : List ℕ)
    (best : ℕ × ℕ) :
    let found := positions.foldl (fun best i =>
      if bytesChecked.getD i true then best
      else if (byteSet Cases i).length < best.2 then (i, (byteSet Cases i).length) else best) best
    (found = best ∨ ∃ i ∈ positions, bytesChecked.getD i true = false ∧
        found = (i, (byteSet Cases i).length)) ∧ found.2 ≤ best.2 ∧
      ∀ i ∈ positions, bytesChecked.getD i true = false → found.2 ≤ (byteSet Cases i).length := by
  induction positions generalizing best with
  | nil => exact ⟨.inl rfl, Nat.le_refl _, fun _ member => absurd member List.not_mem_nil⟩
  | cons position rest ih =>
      rw [List.foldl_cons]
      dsimp only
      by_cases checked : bytesChecked.getD position true = true
      · rw [if_pos checked]
        obtain ⟨found, less, least⟩ := ih best
        refine ⟨found.imp_right fun ⟨i, member, unchecked⟩ =>
          ⟨i, List.mem_cons_of_mem _ member, unchecked⟩, less, fun i member unchecked => ?_⟩
        rcases List.mem_cons.mp member with rfl | later
        · exact absurd (checked.symm.trans unchecked) (by decide)
        · exact least i later unchecked
      · rw [if_neg checked]
        by_cases smaller : (byteSet Cases position).length < best.2
        · rw [if_pos smaller]
          obtain ⟨found, less, least⟩ := ih (position, (byteSet Cases position).length)
          refine ⟨.inr ?_, Nat.le_trans less smaller.le, fun i member unchecked => ?_⟩
          · rcases found with same | ⟨i, member, unchecked⟩
            · exact ⟨position, List.mem_cons_self, Bool.eq_false_iff.mpr checked, same⟩
            · exact ⟨i, List.mem_cons_of_mem _ member, unchecked⟩
          · rcases List.mem_cons.mp member with rfl | later
            · exact less
            · exact least i later unchecked
        · rw [if_neg smaller]
          obtain ⟨found, less, least⟩ := ih best
          refine ⟨found.imp_right fun ⟨i, member, unchecked⟩ =>
            ⟨i, List.mem_cons_of_mem _ member, unchecked⟩, less, fun i member unchecked => ?_⟩
          rcases List.mem_cons.mp member with rfl | later
          · omega
          · exact least i later unchecked

/-- The position that is taken was not checked, where there is such a one. -/
theorem smallest_spec (Cases : List (ℕ × ℕ)) {bytesChecked : List Bool} {i : ℕ}
    (inside : i < bytesChecked.length) (unchecked : bytesChecked.getD i true = false) :
    (smallest Cases bytesChecked).1 < bytesChecked.length ∧
      bytesChecked.getD (smallest Cases bytesChecked).1 true = false ∧
      (smallest Cases bytesChecked).2 = (byteSet Cases (smallest Cases bytesChecked).1).length := by
  obtain ⟨found, _, least⟩ := smallest_fold Cases bytesChecked (List.range bytesChecked.length)
    (0, 257)
  have small := least i (List.mem_range.mpr inside) unchecked
  have few := length_byteSet_le Cases i
  rw [← smallest] at found small
  rcases found with same | ⟨position, member, unchecked', same⟩
  · rw [same] at small
    omega
  · rw [same]
    exact ⟨List.mem_range.mp member, unchecked', rfl⟩

end GreenFuzz.Instrumentation
