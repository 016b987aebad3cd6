import Mathlib.Data.List.Basic
import Mathlib.Data.Nat.ModEq
import Mathlib.Tactic.Common

/-!
# Rings that are written in turn

A log of bounded size keeps its entries in a ring: the entry with number `i` goes to place
`i % h`, over the entry that was there. `RingHolds` says that each place holds the last
entry written to it, and `RingHolds.push` is the rule for one more entry.

What it means for a place to hold an entry is a parameter, since a write may touch more
than the entry's own place.
-/

set_option autoImplicit false

namespace GreenFuzz.Library

variable {α : Type*} {h : ℕ} {before after : α → ℕ → Prop} {entries : List α}

/-- Every entry that was not overwritten is held at its place. -/
def RingHolds (h : ℕ) (holdsAt : α → ℕ → Prop) (entries : List α) : Prop :=
  ∀ i entry, entries[i]? = some entry → entries.length ≤ i + h → holdsAt entry (i % h)

theorem ringHolds_nil (h : ℕ) (holdsAt : α → ℕ → Prop) : RingHolds h holdsAt [] := by
  intro i entry found
  cases found

/-- A write holds the new entry at the next place and keeps what the others hold. -/
theorem RingHolds.push (ring : RingHolds h before entries) {entry : α}
    (newest : after entry (entries.length % h))
    (others : ∀ old place, place ≠ entries.length % h → before old place → after old place) :
    RingHolds h after (entries ++ [entry]) := by
  intro i old found kept
  rw [List.length_append, List.length_singleton] at kept
  rcases Nat.lt_trichotomy i entries.length with earlier | last | later
  · rw [List.getElem?_append_left earlier] at found
    refine others old (i % h) ?_ (ring i old found (by omega))
    -- two numbers less than a round apart do not share a place
    intro same
    obtain ⟨distance, rounds⟩ := (Nat.modEq_iff_dvd' earlier.le).mp same
    have positive : distance ≠ 0 := by
      rintro rfl
      omega
    have round : h ≤ h * distance := Nat.le_mul_of_pos_right h (Nat.pos_of_ne_zero positive)
    omega
  · subst last
    rw [List.getElem?_append_right le_rfl, Nat.sub_self] at found
    cases found
    exact newest
  · rw [List.getElem?_eq_none (by simp only [List.length_append, List.length_singleton]; omega)]
      at found
    cases found

/-- The last entry that was written to a place. -/
def lastIn (h : ℕ) (entries : List α) (place : ℕ) : Option α :=
  if place < entries.length then
    entries[entries.length - 1 - (entries.length - 1 - place) % h]?
  else none

theorem lastIn_isSome {place : ℕ} (written : place < entries.length) :
    ∃ entry, lastIn h entries place = some entry := by
  have inside : entries.length - 1 - (entries.length - 1 - place) % h < entries.length := by omega
  rw [lastIn, if_pos written, List.getElem?_eq_getElem inside]
  exact ⟨_, rfl⟩

/-- A place holds the last entry that was written to it. -/
theorem RingHolds.last (ring : RingHolds h before entries) {place : ℕ} (small : place < h)
    {entry : α} (last : lastIn h entries place = some entry) : before entry place := by
  unfold lastIn at last
  split at last
  next written =>
      have rounds := Nat.mod_add_div (entries.length - 1 - place) h
      have short : (entries.length - 1 - place) % h < h := Nat.mod_lt _ (by omega)
      have index : entries.length - 1 - (entries.length - 1 - place) % h =
          place + h * ((entries.length - 1 - place) / h) := by
        omega
      have held := ring _ entry last (by omega)
      rw [index, Nat.add_mul_mod_self_left, Nat.mod_eq_of_lt small] at held
      exact held
  next => cases last

end GreenFuzz.Library
