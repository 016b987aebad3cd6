import Mathlib.Data.List.Range
import Mathlib.Data.Option.Basic
import Mathlib.Logic.Function.Basic

/-!
# Two stacks in arrays

A stack that grows upwards from the low end of an array holds the elements below its counter,
and its top is the last of them. A stack that grows downwards from the high end holds the last
elements, and its top is the first of them. Accesses to an array of `n` cells are checked.
-/

set_option autoImplicit false

namespace GreenFuzz.Library

variable {α : Type*}

/-! ## Accesses -/

/-- Read a cell of an array of `n` cells. -/
def readCell (n : ℕ) (cells : ℕ → α) (i : ℕ) : Option α := if i < n then some (cells i) else none

/-- Write a cell of an array of `n` cells. -/
def writeCell (n : ℕ) (cells : ℕ → α) (i : ℕ) (a : α) : Option (ℕ → α) :=
  if i < n then some (Function.update cells i a) else none

variable {n i : ℕ} {cells : ℕ → α}

theorem readCell_of_lt (inside : i < n) : readCell n cells i = some (cells i) := if_pos inside

theorem writeCell_of_lt (inside : i < n) (a : α) :
    writeCell n cells i a = some (Function.update cells i a) := if_pos inside

theorem readCell_eq_some_iff {a : α} : readCell n cells i = some a ↔ i < n ∧ cells i = a := by
  rw [readCell, Option.ite_none_right_eq_some, Option.some.injEq]

theorem writeCell_eq_some_iff {a : α} {written : ℕ → α} :
    writeCell n cells i a = some written ↔ i < n ∧ Function.update cells i a = written := by
  rw [writeCell, Option.ite_none_right_eq_some, Option.some.injEq]

/-! ## The stacks -/

/-- The stack of the first `count` cells. -/
def lowStack (cells : ℕ → α) (count : ℕ) : List α := (List.range count).map cells

/-- The stack of the last `count` of `n` cells. -/
def highStack (cells : ℕ → α) (n count : ℕ) : List α := (List.range' (n - count) count).map cells

variable {count : ℕ}

@[simp] theorem length_lowStack : (lowStack cells count).length = count := by
  rw [lowStack, List.length_map, List.length_range]

@[simp] theorem length_highStack : (highStack cells n count).length = count := by
  rw [highStack, List.length_map, List.length_range']

/-- The last cell is the top of the low stack. -/
theorem lowStack_succ : lowStack cells (count + 1) = lowStack cells count ++ [cells count] := by
  rw [lowStack, List.range_succ, List.map_append, List.map_singleton, lowStack]

theorem lowStack_push (a : α) :
    lowStack (Function.update cells count a) (count + 1) = lowStack cells count ++ [a] := by
  rw [lowStack_succ, Function.update_self]
  refine congrArg (· ++ [a]) (List.map_congr_left fun i member => ?_)
  exact Function.update_of_ne (List.mem_range.mp member).ne a cells

/-- The first cell is the top of the high stack. -/
theorem highStack_succ (room : count < n) :
    highStack cells n (count + 1) = cells (n - (count + 1)) :: highStack cells n count := by
  have next : n - (count + 1) + 1 = n - count := by omega
  rw [highStack, List.range'_succ, List.map_cons, next, highStack]

theorem highStack_push (room : count < n) (a : α) :
    highStack (Function.update cells (n - (count + 1)) a) n (count + 1) =
      a :: highStack cells n count := by
  rw [highStack_succ room, Function.update_self]
  refine congrArg (a :: ·) (List.map_congr_left fun i member => ?_)
  have above := (List.mem_range'_1.mp member).1
  have other : i ≠ n - (count + 1) := by omega
  exact Function.update_of_ne other a cells

end GreenFuzz.Library
