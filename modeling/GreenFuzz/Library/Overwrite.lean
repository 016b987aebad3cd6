import Mathlib.Data.List.Basic
import Mathlib.Tactic.Common

/-!
# Overwriting a part of a list

A block written into a list at a position, where both stay as long as they are. A block
that is there already changes nothing, a longer block at the same position hides a
shorter one, and the old contents of a longer block undo a shorter one.
-/

set_option autoImplicit false

namespace GreenFuzz.Library

variable {α : Type*} {buf first second block : List α} {pos : ℕ}

/-- A list with a block written at a position. -/
def overwrite (buf : List α) (pos : ℕ) (block : List α) : List α :=
  buf.take pos ++ block ++ buf.drop (pos + block.length)

/-- The part of a list from a position on. -/
def slice (buf : List α) (pos count : ℕ) : List α := (buf.drop pos).take count

theorem length_overwrite (fits : pos + block.length ≤ buf.length) :
    (overwrite buf pos block).length = buf.length := by
  simp only [overwrite, List.length_append, List.length_take, List.length_drop]
  omega

theorem length_slice {count : ℕ} (fits : pos + count ≤ buf.length) :
    (slice buf pos count).length = count := by
  rw [slice, List.length_take, List.length_drop]
  omega

/-- Writing a part of the list to its own place changes nothing. -/
theorem overwrite_slice (buf : List α) {count : ℕ} (fits : pos + count ≤ buf.length) :
    overwrite buf pos (slice buf pos count) = buf := by
  rw [overwrite, length_slice fits, slice, ← List.take_add, List.take_append_drop]

/-- The part behind a position is not reached by a block that ends before it. -/
theorem drop_overwrite {later : ℕ} (fits : pos + block.length ≤ buf.length)
    (behind : pos + block.length ≤ later) :
    (overwrite buf pos block).drop later = buf.drop later := by
  have length : (buf.take pos ++ block).length = pos + block.length := by
    rw [List.length_append, List.length_take_of_le (by omega)]
  obtain ⟨rest, rfl⟩ := Nat.exists_eq_add_of_le behind
  rw [overwrite, ← List.drop_drop, List.drop_left' length, List.drop_drop]

theorem take_overwrite (fits : pos ≤ buf.length) :
    (overwrite buf pos block).take pos = buf.take pos := by
  rw [overwrite, List.append_assoc, List.take_left' (List.length_take_of_le fits)]

/-- All that stands before the end of the block. -/
theorem take_overwrite_end {count : ℕ} (ending : count = pos + block.length)
    (fits : count ≤ buf.length) : (overwrite buf pos block).take count = buf.take pos ++ block := by
  have length : (buf.take pos ++ block).length = count := by
    rw [List.length_append, List.length_take_of_le (by omega), ending]
  rw [overwrite, List.take_left' length]

/-- Three blocks, one behind the other, from the beginning. -/
theorem take_overwrite_three {third : List α} {count : ℕ} (at_second : pos = first.length)
    (ending : count = first.length + second.length + third.length) (fits : count ≤ buf.length) :
    (overwrite (overwrite (overwrite buf 0 first) pos second) (pos + second.length) third).take
      count = first ++ second ++ third := by
  have length₁ : (overwrite buf 0 first).length = buf.length := length_overwrite (by omega)
  have length₂ : (overwrite (overwrite buf 0 first) pos second).length = buf.length := by
    rw [length_overwrite (by omega), length₁]
  rw [take_overwrite_end (by omega) (by rw [length_overwrite (by omega)]; omega),
    take_overwrite_end rfl (by omega), at_second,
    take_overwrite_end (Nat.zero_add _).symm (by omega), List.take_zero, List.nil_append]

/-- A block hides an earlier one at the same position that is not longer. -/
theorem overwrite_overwrite (shorter : first.length ≤ second.length)
    (fits : pos + second.length ≤ buf.length) :
    overwrite (overwrite buf pos first) pos second = overwrite buf pos second := by
  rw [overwrite, take_overwrite (by omega), drop_overwrite (by omega) (by omega), ← overwrite]

/-- The old contents undo a block. -/
theorem overwrite_undo (fits : pos + block.length ≤ buf.length) :
    overwrite (overwrite buf pos block) pos (slice buf pos block.length) = buf := by
  have length := length_slice fits
  rw [overwrite_overwrite (Nat.le_of_eq length.symm) (by omega), overwrite_slice buf fits]

/-- Writing a block that is there already changes nothing. -/
theorem overwrite_of_slice (fits : pos + block.length ≤ buf.length)
    (there : slice buf pos block.length = block) : overwrite buf pos block = buf := by
  have same := overwrite_slice buf fits
  rwa [there] at same

end GreenFuzz.Library
