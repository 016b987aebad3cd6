import GreenFuzz.Library.CStrings
import Mathlib.Data.List.GetD

/-!
# The distance of two strings

`string_distance_levenshtein` computes an edit distance in one column. The distance of two empty
strings is 1, since the column of an empty string is initialized with 1.

The distance is at least the difference of the lengths (`length_le_distance`).
-/

set_option autoImplicit false

namespace GreenFuzz.Common

open Library

/-- `helper_min3`. -/
def helperMin3 (a b c : ℕ) : ℕ := if a < b then if a < c then a else c else if b < c then b else c

/-- The inner loop, over `s1` and the column from index 1 on. `left` is the value before. -/
def columnRound (c2 : Byte) : List Byte → ℕ → ℕ → List ℕ → List ℕ
  | c1 :: s1, left, lastdiag, olddiag :: column =>
      let value := helperMin3 (olddiag + 1) (left + 1) (lastdiag + if c1 = c2 then 0 else 1)
      value :: columnRound c2 s1 value olddiag column
  | _, _, _, _ => []

/-- The loop over `s2`, where `x` counts the rounds from 1 on. -/
def columnRounds (s1 : List Byte) : List Byte → ℕ → List ℕ → List ℕ
  | [], _, column => column
  | c2 :: s2, x, column =>
      columnRounds s1 s2 (x + 1) (x :: columnRound c2 s1 x (x - 1) column.tail)

/-- The column before the loop. Index 0 is not initialized then, except for an empty string. -/
def firstColumn (s1 : List Byte) : List ℕ :=
  if s1.length = 0 then [1] else List.range (s1.length + 1)

/-- `string_distance_levenshtein`. No string is long enough for a sum to leave its type. -/
def stringDistanceLevenshtein (s1 s2 : List Byte) : ℕ :=
  (columnRounds s1 s2 1 (firstColumn s1)).getD s1.length 0

/-! ## Lengths -/

variable {s1 s2 : List Byte} {c2 : Byte} {x y value left lastdiag : ℕ} {column : List ℕ}

theorem helperMin3_cases (a b c : ℕ) :
    helperMin3 a b c = a ∨ helperMin3 a b c = b ∨ helperMin3 a b c = c := by
  unfold helperMin3
  split_ifs <;> simp

/-- A value is at least the difference of two indices. -/
def Apart (x y value : ℕ) : Prop := x ≤ y + value ∧ y ≤ x + value

/-- The values of a part of the column that starts at index `y` are large enough in round `x`. -/
def ColumnApart (x : ℕ) : ℕ → List ℕ → Prop
  | _, [] => True
  | y, value :: column => Apart x y value ∧ ColumnApart x (y + 1) column

theorem ColumnApart.getElem? (apart : ColumnApart x y column) {i : ℕ}
    (there : column[i]? = some value) : Apart x (y + i) value := by
  induction column generalizing y i with
  | nil => cases there
  | cons first column ih =>
      cases i with
      | zero =>
          cases there
          exact apart.1
      | succ i =>
          have later := ih apart.2 there
          rwa [Nat.add_assoc, Nat.add_comm 1] at later

theorem columnApart_range' (y count : ℕ) : ColumnApart 0 y (List.range' y count) := by
  induction count generalizing y with
  | zero => trivial
  | succ count ih => exact ⟨⟨Nat.zero_le _, by omega⟩, ih (y + 1)⟩

theorem length_columnRound : ∀ {s1 : List Byte} {column : List ℕ} {left lastdiag : ℕ},
    column.length = s1.length → (columnRound c2 s1 left lastdiag column).length = s1.length
  | [], _, _, _, _ => rfl
  | _ :: _, [], _, _, same => by cases same
  | _ :: _, _ :: _, _, _, same => congrArg (· + 1) (length_columnRound (Nat.succ.inj same))

/-- One round of the inner loop carries the bound from one column to the next. -/
theorem columnRound_apart (above : Apart (x + 1) y left) (before : Apart x y lastdiag)
    (apart : ColumnApart x (y + 1) column) :
    ColumnApart (x + 1) (y + 1) (columnRound c2 s1 left lastdiag column) := by
  induction s1 generalizing y left lastdiag column with
  | nil => trivial
  | cons c1 s1 ih =>
      cases column with
      | nil => trivial
      | cons olddiag column =>
          obtain ⟨old, rest⟩ := apart
          have value : Apart (x + 1) (y + 1)
              (helperMin3 (olddiag + 1) (left + 1) (lastdiag + if c1 = c2 then 0 else 1)) := by
            unfold Apart at *
            rcases helperMin3_cases (olddiag + 1) (left + 1) (lastdiag + if c1 = c2 then 0 else 1)
              with min | min | min
            · omega
            · omega
            · rw [min]
              split <;> omega
          exact ⟨value, ih value old rest⟩

theorem columnRounds_apart (s2 : List Byte) (length : column.length = s1.length + 1)
    (apart : ColumnApart x 0 column) :
    (columnRounds s1 s2 (x + 1) column).length = s1.length + 1 ∧
      ColumnApart (x + s2.length) 0 (columnRounds s1 s2 (x + 1) column) := by
  induction s2 generalizing x column with
  | nil => exact ⟨length, apart⟩
  | cons c2 s2 ih =>
      obtain ⟨first, column, rfl⟩ := List.exists_cons_of_length_eq_add_one length
      have next : ColumnApart (x + 1) 0 ((x + 1) :: columnRound c2 s1 (x + 1) x column) :=
        ⟨⟨by omega, by omega⟩,
          columnRound_apart ⟨by omega, by omega⟩ ⟨by omega, by omega⟩ apart.2⟩
      have later := ih (congrArg (· + 1) (length_columnRound (Nat.succ.inj length))) next
      rw [List.length_cons, ← Nat.add_assoc, Nat.add_right_comm]
      exact later

/-- The distance of two strings is at least the difference of their lengths. -/
theorem length_le_distance (s1 s2 : List Byte) :
    Apart s2.length s1.length (stringDistanceLevenshtein s1 s2) := by
  have start : (firstColumn s1).length = s1.length + 1 ∧ ColumnApart 0 0 (firstColumn s1) := by
    unfold firstColumn
    split
    · rename_i empty
      exact ⟨by rw [empty]; rfl, ⟨Nat.zero_le _, Nat.zero_le _⟩, trivial⟩
    · refine ⟨List.length_range, ?_⟩
      rw [List.range_eq_range']
      exact columnApart_range' 0 _
  obtain ⟨length, apart⟩ := columnRounds_apart s2 start.1 start.2
  rw [Nat.zero_add] at length apart
  have inside : s1.length < (columnRounds s1 s2 1 (firstColumn s1)).length := by omega
  have last := apart.getElem? (List.getElem?_eq_getElem inside)
  rw [stringDistanceLevenshtein, List.getD_eq_getElem _ _ inside]
  rwa [Nat.zero_add] at last

end GreenFuzz.Common
