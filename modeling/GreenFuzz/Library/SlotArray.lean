import Mathlib.Data.Finset.Card
import Mathlib.Data.Finset.Range

/-!
# Arrays of slots

A slot array is a function from indices to optional values. The set of occupied slots
below a bound follows insertions and removals, and so does the set of the slots that hold
one value. A bound that exceeds the number of occupied slots leaves an empty one, and a linear
search from any index at or below an empty slot finds one no later.
-/

set_option autoImplicit false

namespace GreenFuzz.Library

variable {α : Type*} {slots : ℕ → Option α} {n i : ℕ}

/-- The slots below `n` that hold a value. -/
def occupied (slots : ℕ → Option α) (n : ℕ) : Finset ℕ :=
  (Finset.range n).filter fun i => (slots i).isSome

@[simp] theorem mem_occupied : i ∈ occupied slots n ↔ i < n ∧ (slots i).isSome := by
  rw [occupied, Finset.mem_filter, Finset.mem_range]

theorem occupied_update_some (inside : i < n) (a : α) :
    occupied (Function.update slots i (some a)) n = insert i (occupied slots n) := by
  ext j
  by_cases same : j = i
  · subst same
    simp [inside]
  · simp [same]

theorem occupied_update_none (slots : ℕ → Option α) (n i : ℕ) :
    occupied (Function.update slots i none) n = (occupied slots n).erase i := by
  ext j
  by_cases same : j = i
  · subst same
    simp
  · simp [same]

/-- Slots above the last used one do not count. -/
theorem occupied_eq_of_empty {m : ℕ} (le : m ≤ n) (empty : ∀ i, m ≤ i → i < n → slots i = none) :
    occupied slots n = occupied slots m := by
  ext i
  rw [mem_occupied, mem_occupied]
  constructor
  · rintro ⟨below, used⟩
    refine ⟨?_, used⟩
    by_contra above
    rw [empty i (Nat.le_of_not_lt above) below] at used
    cases used
  · rintro ⟨below, used⟩
    exact ⟨below.trans_le le, used⟩

/-- Fewer occupied slots than slots leave one empty. -/
theorem exists_empty (few : (occupied slots n).card < n) : ∃ i < n, slots i = none := by
  by_contra full
  have all : Finset.range n ⊆ occupied slots n := by
    intro i inside
    rw [Finset.mem_range] at inside
    refine mem_occupied.mpr ⟨inside, Option.isSome_iff_ne_none.mpr fun empty => ?_⟩
    exact full ⟨i, inside, empty⟩
  have := Finset.card_le_card all
  rw [Finset.card_range] at this
  omega

/-- The slots below `n` that hold the value `a`. -/
def slotsOf [DecidableEq α] (slots : ℕ → Option α) (n : ℕ) (a : α) : Finset ℕ :=
  (Finset.range n).filter fun i => slots i = some a

section SlotsOf

variable [DecidableEq α]

@[simp] theorem mem_slotsOf {a : α} : i ∈ slotsOf slots n a ↔ i < n ∧ slots i = some a := by
  rw [slotsOf, Finset.mem_filter, Finset.mem_range]

theorem slotsOf_update_self (inside : i < n) (a : α) :
    slotsOf (Function.update slots i (some a)) n a = insert i ((slotsOf slots n a).erase i) := by
  ext j
  by_cases same : j = i
  · subst same
    simp [inside]
  · simp [same]

theorem slotsOf_update_of_ne {a b : α} (differ : a ≠ b) (i : ℕ) :
    slotsOf (Function.update slots i (some b)) n a = (slotsOf slots n a).erase i := by
  ext j
  by_cases same : j = i
  · subst same
    simp [differ.symm]
  · simp [same]

theorem card_slotsOf_le (slots : ℕ → Option α) (n : ℕ) (a : α) : (slotsOf slots n a).card ≤ n := by
  calc (slotsOf slots n a).card
      ≤ (Finset.range n).card := Finset.card_le_card (Finset.filter_subset _ _)
    _ = n := Finset.card_range n

end SlotsOf

/-- Look for an empty slot in the `fuel` slots from `i` on. -/
def firstEmpty (slots : ℕ → Option α) : ℕ → ℕ → Option ℕ
  | 0, _ => none
  | fuel + 1, i => if (slots i).isNone then some i else firstEmpty slots fuel (i + 1)

/-- The search finds a slot at or before any empty one. -/
theorem firstEmpty_finds {fuel start : ℕ} (after : start ≤ i) (inside : i < start + fuel)
    (empty : slots i = none) :
    ∃ j, firstEmpty slots fuel start = some j ∧ start ≤ j ∧ j ≤ i ∧ slots j = none := by
  induction fuel generalizing start with
  | zero => omega
  | succ fuel ih =>
      unfold firstEmpty
      cases here : slots start with
      | none => exact ⟨start, by simp, le_rfl, after, here⟩
      | some a =>
          have later : start ≠ i := by
            rintro rfl
            rw [here] at empty
            cases empty
          obtain ⟨j, found, from_start, upto, free⟩ :=
            ih (Nat.lt_of_le_of_ne after later) (by omega)
          exact ⟨j, by simpa using found, by omega, upto, free⟩

end GreenFuzz.Library
