import Mathlib.Data.Nat.Count
import Mathlib.Order.Bounds.Basic

/-!
# Counting the indices that have a property

How the number of indices below a bound that have a property follows changes of the property at
one index, and a larger bound. A variable that holds the first such index, and -1 if there is
none, is kept up to date by comparing it with each index that gains the property
(`IsFirst.insert`).
-/

set_option autoImplicit false

namespace GreenFuzz.Library

variable {p q : ℕ → Prop} [DecidablePred p] [DecidablePred q] {m n i : ℕ}

theorem count_congr_below (same : ∀ j < n, p j ↔ q j) : Nat.count p n = Nat.count q n :=
  le_antisymm (Nat.count_mono_left fun j inside => (same j inside).mp)
    (Nat.count_mono_left fun j inside => (same j inside).mpr)

/-- One index gains the property. -/
theorem count_gain (inside : i < n) (lacks : ¬ p i) (has : q i)
    (same : ∀ j < n, j ≠ i → (q j ↔ p j)) : Nat.count q n = Nat.count p n + 1 := by
  induction n with
  | zero => cases inside
  | succ n ih =>
      rw [Nat.count_succ, Nat.count_succ]
      rcases Nat.lt_succ_iff_lt_or_eq.mp inside with early | rfl
      · rw [ih early fun j below other => same j (Nat.lt_succ_of_lt below) other,
          if_congr (same n (Nat.lt_succ_self n) early.ne') rfl rfl]
        omega
      · rw [if_pos has, if_neg lacks, count_congr_below fun j below =>
          same j (Nat.lt_succ_of_lt below) below.ne]

/-- Indices without the property do not count. -/
theorem count_extend (le : m ≤ n) (lack : ∀ j < n, m ≤ j → ¬ p j) :
    Nat.count p n = Nat.count p m := by
  induction n with
  | zero => rw [Nat.le_zero.mp le]
  | succ n ih =>
      rcases Nat.le_succ_iff.mp le with early | rfl
      · rw [Nat.count_succ, if_neg (lack n (Nat.lt_succ_self n) early),
          ih early fun j below => lack j (Nat.lt_succ_of_lt below), Nat.add_zero]
      · rfl

/-- All later indices have the property. -/
theorem count_grow (le : m ≤ n) (old : ∀ j < m, q j ↔ p j) (new : ∀ j < n, m ≤ j → q j) :
    Nat.count q n + m = Nat.count p m + n := by
  induction n with
  | zero =>
      obtain rfl : m = 0 := Nat.le_zero.mp le
      simp
  | succ n ih =>
      rcases Nat.le_succ_iff.mp le with early | rfl
      · have before := ih early fun j below => new j (Nat.lt_succ_of_lt below)
        rw [Nat.count_succ, if_pos (new n (Nat.lt_succ_self n) early)]
        omega
      · rw [count_congr_below old]

/-- An index has the property or lacks it. -/
theorem count_compl (excludes : ∀ j < n, q j ↔ ¬ p j) : Nat.count q n + Nat.count p n = n := by
  induction n with
  | zero => rfl
  | succ n ih =>
      have before := ih fun j below => excludes j (Nat.lt_succ_of_lt below)
      rw [Nat.count_succ, Nat.count_succ]
      by_cases has : p n
      · rw [if_pos has, if_neg fun lacks => (excludes n (Nat.lt_succ_self n)).mp lacks has]
        omega
      · rw [if_neg has, if_pos ((excludes n (Nat.lt_succ_self n)).mpr has)]
        omega

theorem count_pos_of (inside : i < n) (has : p i) : 0 < Nat.count p n :=
  Nat.pos_of_ne_zero (Nat.count_ne_iff_exists.mpr ⟨i, inside, has⟩)

/-- Two counts in a list agree exactly if the weaker property implies the stronger one there. -/
theorem countP_eq_countP_iff {α : Type*} {p q : α → Bool} {l : List α}
    (weaker : ∀ x ∈ l, q x = true → p x = true) :
    l.countP p = l.countP q ↔ ∀ x ∈ l, p x = true → q x = true := by
  induction l with
  | nil => simp
  | cons x l ih =>
      have fewer : l.countP q ≤ l.countP p :=
        List.countP_mono_left fun y member => weaker y (List.mem_cons_of_mem _ member)
      have rest := ih fun y member => weaker y (List.mem_cons_of_mem _ member)
      have here := weaker x List.mem_cons_self
      rw [List.countP_cons, List.countP_cons, List.forall_mem_cons, ← rest]
      cases px : p x with
      | false =>
          have qx : q x = false := Bool.eq_false_iff.mpr fun qx => by
            rw [here qx] at px
            cases px
          simp [qx]
      | true =>
          cases qx : q x with
          | false =>
              refine iff_of_false ?_ fun both => absurd (both.1 rfl) Bool.false_ne_true
              rw [if_pos rfl, if_neg Bool.false_ne_true]
              omega
          | true => simp

/-- The first index below `n` that has the property, or -1. -/
def IsFirst (p : ℕ → Prop) (n : ℕ) (first : ℤ) : Prop :=
  (first = -1 ∧ ∀ j < n, ¬ p j) ∨ ∃ j : ℕ, first = j ∧ IsLeast {k | k < n ∧ p k} j

omit [DecidablePred p] [DecidablePred q] in
theorem IsFirst.congr {first : ℤ} (is : IsFirst p n first) (same : ∀ j < n, p j ↔ q j) :
    IsFirst q n first := by
  rcases is with ⟨rfl, none⟩ | ⟨j, rfl, ⟨inside, has⟩, least⟩
  · exact Or.inl ⟨rfl, fun j inside has => none j inside ((same j inside).mpr has)⟩
  · refine Or.inr ⟨j, rfl, ⟨inside, (same j inside).mp has⟩, fun k member => ?_⟩
    exact least ⟨member.1, (same k member.1).mpr member.2⟩

omit [DecidablePred p] [DecidablePred q] in
/-- Another index gains the property. -/
theorem IsFirst.insert {first : ℤ} (is : IsFirst p n first) (inside : i < n)
    (same : ∀ j < n, q j ↔ p j ∨ j = i) :
    IsFirst q n (if first = -1 ∨ first > i then (i : ℤ) else first) := by
  rcases is with ⟨rfl, none⟩ | ⟨j, rfl, ⟨below, has⟩, least⟩
  · rw [if_pos (Or.inl rfl)]
    refine Or.inr ⟨i, rfl, ⟨inside, (same i inside).mpr (Or.inr rfl)⟩, fun k member => ?_⟩
    rcases (same k member.1).mp member.2 with has | rfl
    · exact absurd has (none k member.1)
    · exact le_rfl
  · by_cases earlier : i < j
    · rw [if_pos (Or.inr (by omega))]
      refine Or.inr ⟨i, rfl, ⟨inside, (same i inside).mpr (Or.inr rfl)⟩, fun k member => ?_⟩
      rcases (same k member.1).mp member.2 with has | rfl
      · exact earlier.le.trans (least ⟨member.1, has⟩)
      · exact le_rfl
    · rw [if_neg (by omega)]
      refine Or.inr ⟨j, rfl, ⟨below, (same j below).mpr (Or.inl has)⟩, fun k member => ?_⟩
      rcases (same k member.1).mp member.2 with has | rfl
      · exact least ⟨member.1, has⟩
      · exact Nat.le_of_not_lt earlier

end GreenFuzz.Library
