import Mathlib.Data.List.Basic

/-!
# Dictionaries

A dictionary that keeps the order in which its keys were added is a list of pairs. Assigning to
a key that is there keeps its place.
-/

set_option autoImplicit false

namespace GreenFuzz.Library

variable {κ α : Type*} [DecidableEq κ]

/-- `d[key] = value`. -/
def assign : List (κ × α) → κ → α → List (κ × α)
  | [], key, value => [(key, value)]
  | (other, old) :: rest, key, value =>
      if other = key then (key, value) :: rest else (other, old) :: assign rest key value

theorem lookup_cons_eq_ite (other : κ) (old : α) (rest : List (κ × α)) (k : κ) :
    ((other, old) :: rest).lookup k = if k = other then some old else rest.lookup k := by
  by_cases same : k = other
  · simp [same]
  · have differ : (k == other) = false := by simpa using same
    rw [List.lookup_cons, differ, if_neg same]

theorem lookup_assign (d : List (κ × α)) (key : κ) (value : α) (k : κ) :
    (assign d key value).lookup k = if k = key then some value else d.lookup k := by
  induction d with
  | nil =>
      rw [assign, lookup_cons_eq_ite]
  | cons pair rest ih =>
      obtain ⟨other, old⟩ := pair
      by_cases here : other = key
      · subst here
        rw [assign, if_pos rfl, lookup_cons_eq_ite, lookup_cons_eq_ite]
        split <;> rfl
      · rw [assign, if_neg here, lookup_cons_eq_ite, lookup_cons_eq_ite, ih]
        by_cases same : k = other
        · rw [if_pos same, if_pos same, if_neg (same ▸ here)]
        · rw [if_neg same, if_neg same]

/-- Assigning adds the key. -/
theorem mem_keys_assign (d : List (κ × α)) (key : κ) (value : α) (k : κ) :
    k ∈ (assign d key value).map Prod.fst ↔ k = key ∨ k ∈ d.map Prod.fst := by
  induction d with
  | nil => simp [assign]
  | cons pair rest ih =>
      obtain ⟨other, old⟩ := pair
      by_cases here : other = key
      · subst here
        simp [assign]
      · rw [assign, if_neg here, List.map_cons, List.mem_cons, ih, List.map_cons, List.mem_cons]
        exact or_left_comm

/-- Where the keys differ, a pair is found by its key. -/
theorem lookup_eq_some_iff_mem {d : List (κ × α)} (distinct : (d.map Prod.fst).Nodup) {k : κ}
    {value : α} : d.lookup k = some value ↔ (k, value) ∈ d := by
  induction d with
  | nil => simp
  | cons pair d ih =>
      obtain ⟨other, old⟩ := pair
      rw [List.map_cons, List.nodup_cons] at distinct
      rw [lookup_cons_eq_ite, List.mem_cons, Prod.mk.injEq]
      split
      · rename_i here
        subst here
        have new : (k, value) ∉ d := fun later =>
          distinct.1 (List.mem_map.mpr ⟨(k, value), later, rfl⟩)
        simp [new, eq_comm]
      · rename_i elsewhere
        rw [ih distinct.2]
        simp [elsewhere]

end GreenFuzz.Library
