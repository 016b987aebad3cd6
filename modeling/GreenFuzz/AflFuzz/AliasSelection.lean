import GreenFuzz.AflFuzz.AliasStacks
import GreenFuzz.AflFuzz.AliasWeights
import Mathlib

/-!
# Selection by weight

After `create_alias_table`, a uniformly random slot and a uniformly random number in `[0, 1)`
should make `select_next_queue_entry` return an entry with the probability that is its part of
the total weight.

`MMOPT` doubles the weights of the latest entries after the sum was taken. Then the masses add
up to more than the number of slots, and the left-over loop cuts what is above 1. The selection
is still by weight only if all enabled entries but the first weigh exactly the average. The
partition loop counts down a signed 32-bit variable, so with more than `2 ^ 31` entries it does
not run and entry 0 is always returned (`selection_by_weight_iff`).
-/

set_option autoImplicit false

namespace GreenFuzz.AflFuzz

open Library MeasureTheory

/-! ## Probabilities -/

/-- The probability that a uniformly random slot and a uniformly random number in `[0, 1)` select
the entry `i`. -/
noncomputable def selectionProbability (afl : AflState) (i : ℕ) : ℝ :=
  (∑ s ∈ Finset.range afl.queuedItems,
    volume.real {p : ℝ | p ∈ Set.Ico 0 1 ∧ selectNextQueueEntry afl s p = i}) / afl.queuedItems

/-- Every entry is selected with the probability that is its part of the total weight, and a
disabled entry is never selected. -/
structure SelectsByWeight (afl : AflState) : Prop where
  proportional : ∀ i < afl.queuedItems, selectionProbability afl i =
    ((finalWeight afl i / ∑ j ∈ Finset.range afl.queuedItems, finalWeight afl j : ℚ) : ℝ)
  never_disabled : ∀ i < afl.queuedItems, (afl.queueBuf i).disabled = true →
    ∀ s < afl.queuedItems, ∀ p ∈ Set.Ico (0 : ℝ) 1, selectNextQueueEntry afl s p ≠ i

variable {afl : AflState} {t : AliasTable ℕ ℚ}

/-- The numbers that select `i` in a slot measure what the slot gives to `i`. -/
theorem volume_selects (prob : afl.aliasProbability = t.prob) (aliasOf : afl.aliasTable = t.aliasOf)
    {s : ℕ} (range : t.prob s ∈ Set.Icc 0 1) (i : ℕ) :
    volume.real {p : ℝ | p ∈ Set.Ico 0 1 ∧ selectNextQueueEntry afl s p = i} =
      (t.gives s i : ℝ) := by
  have low : (0 : ℝ) ≤ t.prob s := Rat.cast_nonneg.mpr range.1
  have high : (t.prob s : ℝ) ≤ 1 := by exact_mod_cast range.2
  have select (p : ℝ) : selectNextQueueEntry afl s p =
      if p < (t.prob s : ℝ) then s else t.aliasOf s := by
    rw [selectNextQueueEntry, prob, aliasOf]
  simp only [select, AliasTable.gives]
  by_cases own : i = s <;> by_cases other : i = t.aliasOf s
  · have all : {p : ℝ | p ∈ Set.Ico 0 1 ∧ (if p < (t.prob s : ℝ) then s else t.aliasOf s) = i} =
        Set.Ico 0 1 := by
      ext p
      have both : (if p < (t.prob s : ℝ) then s else t.aliasOf s) = i := by
        rw [← other, ← own]
        exact ite_self i
      simp [both]
    rw [all, Real.volume_real_Ico_of_le zero_le_one, if_pos own, if_pos other]
    push_cast
    ring
  · have below : {p : ℝ | p ∈ Set.Ico 0 1 ∧ (if p < (t.prob s : ℝ) then s else t.aliasOf s) = i} =
        Set.Ico 0 (t.prob s : ℝ) := by
      ext p
      by_cases less : p < (t.prob s : ℝ)
      · simp [less, own, less.trans_le high]
      · simp [less, Ne.symm other]
    rw [below, Real.volume_real_Ico_of_le low, if_pos own, if_neg other]
    push_cast
    ring
  · have above : {p : ℝ | p ∈ Set.Ico 0 1 ∧ (if p < (t.prob s : ℝ) then s else t.aliasOf s) = i} =
        Set.Ico (t.prob s : ℝ) 1 := by
      ext p
      by_cases less : p < (t.prob s : ℝ)
      · simp [less, Ne.symm own]
      · simp [not_lt.mp less, other, low.trans (not_lt.mp less), less]
    rw [above, Real.volume_real_Ico_of_le high, if_neg own, if_pos other]
    push_cast
    ring
  · have none : {p : ℝ | p ∈ Set.Ico 0 1 ∧ (if p < (t.prob s : ℝ) then s else t.aliasOf s) = i} =
        ∅ := by
      ext p
      by_cases less : p < (t.prob s : ℝ)
      · simp [less, Ne.symm own]
      · simp [less, Ne.symm other]
    rw [none, measureReal_empty, if_neg own, if_neg other, add_zero, Rat.cast_zero]

/-- A slot gives something to the index that it selects. -/
theorem gives_pos_of_selects (prob : afl.aliasProbability = t.prob)
    (aliasOf : afl.aliasTable = t.aliasOf) {s : ℕ} (range : t.prob s ∈ Set.Icc 0 1) {p : ℝ}
    (number : p ∈ Set.Ico (0 : ℝ) 1) : 0 < t.gives s (selectNextQueueEntry afl s p) := by
  have low := range.1
  have high := range.2
  rw [selectNextQueueEntry, prob, aliasOf, AliasTable.gives]
  by_cases less : p < (t.prob s : ℝ)
  · have positive : 0 < t.prob s := by exact_mod_cast number.1.trans_lt less
    rw [if_pos less, if_pos rfl]
    split <;> linarith
  · have under : t.prob s < 1 := by exact_mod_cast (not_lt.mp less).trans_lt number.2
    rw [if_neg less, if_pos (rfl : t.aliasOf s = t.aliasOf s)]
    split <;> linarith

theorem selectionProbability_eq_share (prob : afl.aliasProbability = t.prob)
    (aliasOf : afl.aliasTable = t.aliasOf)
    (range : ∀ s ∈ Finset.range afl.queuedItems, t.prob s ∈ Set.Icc 0 1) (i : ℕ) :
    selectionProbability afl i =
      ((t.share (Finset.range afl.queuedItems) i / afl.queuedItems : ℚ) : ℝ) := by
  rw [selectionProbability, AliasTable.share]
  push_cast
  rw [Finset.sum_congr rfl fun s inside => volume_selects prob aliasOf (range s inside) i]

/-! ## Tables of up to `2 ^ 31` slots -/

/-- The weight in proportion to the total weight, in terms of masses. -/
theorem ratio_iff {share weight total slots sum : ℚ} (some_slot : 0 < slots)
    (some_weight : 0 < total) (positive : 0 < sum) :
    share / slots = weight / total ↔
      share * (total * slots / sum) = weight * slots / sum * slots := by
  have scale : slots / sum ≠ 0 := (div_pos some_slot positive).ne'
  have left : share * (total * slots / sum) = share * total * (slots / sum) := by ring
  have right : weight * slots / sum * slots = weight * slots * (slots / sum) := by ring
  rw [div_eq_div_iff some_slot.ne' some_weight.ne', left, right, mul_left_inj' scale]

/-- A table that Vose's construction ends with, for masses in proportion to the final
weights. -/
structure Tabled (afl : AflState) (P : ℕ → ℚ) (sum : ℚ) (v : AliasState ℕ ℚ) : Prop where
  prob : afl.aliasProbability = v.finish.prob
  aliasOf : afl.aliasTable = v.finish.aliasOf
  sound : v.Sound (Finset.range afl.queuedItems) P
    ((List.range afl.queuedItems).filter fun i => ¬ P i < 1)
  done : v.small = [] ∨ v.large = []
  mass : ∀ i, P i = finalWeight afl i * afl.queuedItems / sum
  sum_pos : 0 < sum
  weight_nonneg : ∀ i < afl.queuedItems, 0 ≤ finalWeight afl i
  sum_le : sum ≤ ∑ i ∈ Finset.range afl.queuedItems, finalWeight afl i

namespace Tabled

variable {P : ℕ → ℚ} {sum : ℚ} {v : AliasState ℕ ℚ}

variable (tabled : Tabled afl P sum v)

include tabled

theorem sum_mass :
    ∑ i ∈ Finset.range afl.queuedItems, P i =
      (∑ i ∈ Finset.range afl.queuedItems, finalWeight afl i) * afl.queuedItems / sum := by
  rw [Finset.sum_mul, Finset.sum_div]
  exact Finset.sum_congr rfl fun i _ => tabled.mass i

theorem total_pos : 0 < ∑ i ∈ Finset.range afl.queuedItems, finalWeight afl i :=
  tabled.sum_pos.trans_le tabled.sum_le

theorem slots_pos : (0 : ℚ) < afl.queuedItems := by
  refine Nat.cast_pos.mpr (Nat.pos_of_ne_zero fun none => ?_)
  have total := tabled.total_pos
  rw [none, Finset.range_zero, Finset.sum_empty] at total
  exact lt_irrefl 0 total

/-- If the sum is that of the final weights, the masses add up to the number of slots. -/
theorem balanced (equal : sum = ∑ i ∈ Finset.range afl.queuedItems, finalWeight afl i) :
    ∑ i ∈ Finset.range afl.queuedItems, P i = (Finset.range afl.queuedItems).card := by
  rw [tabled.sum_mass, ← equal, Finset.card_range, mul_div_right_comm,
    div_self tabled.sum_pos.ne', one_mul]

/-- If it is smaller, they add up to more. -/
theorem excess (less : sum < ∑ i ∈ Finset.range afl.queuedItems, finalWeight afl i) :
    ((Finset.range afl.queuedItems).card : ℚ) < ∑ i ∈ Finset.range afl.queuedItems, P i := by
  rw [tabled.sum_mass, Finset.card_range, lt_div_iff₀ tabled.sum_pos, mul_comm]
  exact mul_lt_mul_of_pos_right less tabled.slots_pos

/-- An entry without weight gets nothing. -/
theorem share_of_weightless {i : ℕ} (queued : i < afl.queuedItems)
    (weightless : finalWeight afl i = 0) : v.finish.share (Finset.range afl.queuedItems) i = 0 := by
  have massless : P i = 0 := by rw [tabled.mass, weightless, zero_mul, zero_div]
  have inside := Finset.mem_range.mpr queued
  rcases tabled.sum_le.eq_or_lt with equal | less
  · rw [tabled.sound.share_of_balanced tabled.done (tabled.balanced equal) inside, massless]
  · exact tabled.sound.share_of_no_mass tabled.done (tabled.excess less) inside massless

/-- A disabled entry is never selected. -/
theorem never_disabled {i : ℕ} (queued : i < afl.queuedItems)
    (disabled : (afl.queueBuf i).disabled = true) {s : ℕ} (slot : s < afl.queuedItems) {p : ℝ}
    (number : p ∈ Set.Ico (0 : ℝ) 1) : selectNextQueueEntry afl s p ≠ i := by
  rintro rfl
  have inside := Finset.mem_range.mpr slot
  have gives (r : ℕ) (member : r ∈ Finset.range afl.queuedItems) :=
    v.finish.gives_nonneg (tabled.sound.slot r member).1.1 (tabled.sound.slot r member).1.2
      (selectNextQueueEntry afl s p)
  have nothing := tabled.share_of_weightless queued (finalWeight_of_disabled disabled)
  have positive := gives_pos_of_selects tabled.prob tabled.aliasOf (tabled.sound.slot s inside).1
    number
  exact positive.ne' ((Finset.sum_eq_zero_iff_of_nonneg gives).mp nothing s inside)

/-- The selection is by weight when the shares are in proportion to the masses. -/
theorem selects_iff :
    SelectsByWeight afl ↔ ∀ i ∈ Finset.range afl.queuedItems,
      v.finish.share (Finset.range afl.queuedItems) i * ∑ j ∈ Finset.range afl.queuedItems, P j =
        P i * (Finset.range afl.queuedItems).card := by
  have each (i : ℕ) : (selectionProbability afl i =
      ((finalWeight afl i / ∑ j ∈ Finset.range afl.queuedItems, finalWeight afl j : ℚ) : ℝ)) ↔
      v.finish.share (Finset.range afl.queuedItems) i * ∑ j ∈ Finset.range afl.queuedItems, P j =
        P i * (Finset.range afl.queuedItems).card := by
    rw [selectionProbability_eq_share tabled.prob tabled.aliasOf
      (fun s inside => (tabled.sound.slot s inside).1), Rat.cast_inj,
      ratio_iff tabled.slots_pos tabled.total_pos tabled.sum_pos, tabled.sum_mass, tabled.mass i,
      Finset.card_range]
  constructor
  · intro selects i inside
    exact (each i).mp (selects.proportional i (Finset.mem_range.mp inside))
  · intro proportional
    refine ⟨fun i queued => (each i).mpr (proportional i (Finset.mem_range.mpr queued)), ?_⟩
    intro i queued disabled s slot p number
    exact tabled.never_disabled queued disabled slot number

/-- If the sum is that of the final weights, the selection is by weight. -/
theorem selects_of_balanced (equal : sum = ∑ i ∈ Finset.range afl.queuedItems, finalWeight afl i) :
    SelectsByWeight afl := by
  have balanced := tabled.balanced equal
  refine tabled.selects_iff.mpr fun i inside => ?_
  rw [balanced, tabled.sound.share_of_balanced tabled.done balanced inside]

theorem mass_pos_iff (i : ℕ) : 0 < P i ↔ 0 < finalWeight afl i := by
  rw [tabled.mass, mul_div_assoc]
  exact mul_pos_iff_of_pos_right (div_pos tabled.slots_pos tabled.sum_pos)

/-- An entry of average weight has the average mass, and the other way round. -/
theorem average_iff (i : ℕ) :
    P i * (Finset.range afl.queuedItems).card = ∑ j ∈ Finset.range afl.queuedItems, P j ↔
      finalWeight afl i * afl.queuedItems =
        ∑ j ∈ Finset.range afl.queuedItems, finalWeight afl j := by
  have scale : (afl.queuedItems : ℚ) / sum ≠ 0 := (div_pos tabled.slots_pos tabled.sum_pos).ne'
  rw [tabled.sum_mass, tabled.mass, Finset.card_range, mul_div_assoc, mul_right_comm, mul_div_assoc,
    mul_left_inj' scale]

/-- An entry of at least average weight is large. -/
theorem large_of_average_le (less : sum < ∑ i ∈ Finset.range afl.queuedItems, finalWeight afl i)
    {i : ℕ}
    (average : ∑ j ∈ Finset.range afl.queuedItems, finalWeight afl j ≤
      finalWeight afl i * afl.queuedItems) : 1 ≤ P i := by
  rw [tabled.mass, one_le_div tabled.sum_pos]
  exact less.le.trans average

omit tabled in
theorem head?_eq_some_iff {n i : ℕ} :
    ((List.range n).filter fun i => ¬ P i < 1).head? = some i ↔
      (1 ≤ P i ∧ i < n) ∧ ∀ j < i, P j < 1 := by
  rw [List.head?_filter, List.find?_range_eq_some]
  simp [and_assoc]

/-- If all weights but the first positive one are the average, then the first is at least the
average. -/
theorem average_le_first {i : ℕ} (queued : i < afl.queuedItems)
    (average : ∀ j < afl.queuedItems, j ≠ i → 0 < finalWeight afl j →
      finalWeight afl j * afl.queuedItems =
        ∑ k ∈ Finset.range afl.queuedItems, finalWeight afl k) :
    ∑ k ∈ Finset.range afl.queuedItems, finalWeight afl k ≤
      finalWeight afl i * afl.queuedItems := by
  set total := ∑ k ∈ Finset.range afl.queuedItems, finalWeight afl k with total_eq
  have inside := Finset.mem_range.mpr queued
  have bound : ∀ j ∈ (Finset.range afl.queuedItems).erase i,
      finalWeight afl j * afl.queuedItems ≤ total := by
    intro j member
    have queued_j := Finset.mem_range.mp (Finset.mem_of_mem_erase member)
    rcases (tabled.weight_nonneg j queued_j).eq_or_lt with zero | positive
    · rw [← zero, zero_mul]
      exact tabled.total_pos.le
    · exact (average j queued_j (Finset.ne_of_mem_erase member) positive).le
  have others : ∑ j ∈ (Finset.range afl.queuedItems).erase i, finalWeight afl j * afl.queuedItems ≤
      (afl.queuedItems - 1) * total := by
    calc ∑ j ∈ (Finset.range afl.queuedItems).erase i, finalWeight afl j * afl.queuedItems
        ≤ ∑ j ∈ (Finset.range afl.queuedItems).erase i, total := Finset.sum_le_sum bound
      _ = (afl.queuedItems - 1) * total := by
          rw [Finset.sum_const, nsmul_eq_mul, Finset.card_erase_of_mem inside, Finset.card_range,
            Nat.cast_pred (Nat.zero_lt_of_lt queued)]
  have split : total * afl.queuedItems = finalWeight afl i * afl.queuedItems +
      ∑ j ∈ (Finset.range afl.queuedItems).erase i, finalWeight afl j * afl.queuedItems := by
    rw [total_eq, Finset.sum_mul]
    exact (Finset.add_sum_erase _ (fun j => finalWeight afl j * (afl.queuedItems : ℚ)) inside).symm
  linarith

/-- If the sum is smaller than that of the final weights, the selection is by weight exactly
when all positive weights but the first are the average. -/
theorem selects_of_excess_iff (less : sum < ∑ i ∈ Finset.range afl.queuedItems, finalWeight afl i) :
    SelectsByWeight afl ↔ ∀ i < afl.queuedItems, 0 < finalWeight afl i →
      (∃ j < i, 0 < finalWeight afl j) →
        finalWeight afl i * afl.queuedItems =
          ∑ k ∈ Finset.range afl.queuedItems, finalWeight afl k := by
  have nonneg : ∀ i ∈ Finset.range afl.queuedItems, 0 ≤ P i := by
    intro i inside
    rw [tabled.mass]
    exact div_nonneg (mul_nonneg (tabled.weight_nonneg i (Finset.mem_range.mp inside))
      tabled.slots_pos.le) tabled.sum_pos.le
  rw [tabled.selects_iff, tabled.sound.share_of_excess_iff tabled.done (tabled.excess less)
    (List.nodup_range.filter _) nonneg (fun i => by simp)]
  simp only [Finset.mem_range, tabled.mass_pos_iff, tabled.average_iff]
  constructor
  · rintro average i queued positive ⟨j, earlier, positive_j⟩
    refine average i queued positive fun top => ?_
    obtain ⟨-, light⟩ := head?_eq_some_iff.mp top
    have equal := average j (earlier.trans queued) positive_j fun first =>
      earlier.ne (Option.some.inj (first.symm.trans top))
    exact absurd (light j earlier) (not_lt.mpr (tabled.large_of_average_le less equal.ge))
  · intro average i queued positive below
    by_cases preceded : ∃ j < i, 0 < finalWeight afl j
    · exact average i queued positive preceded
    · have after_first : ∀ j, 0 < finalWeight afl j → j ≠ i → i < j := fun j positive_j other =>
        lt_of_le_of_ne (not_lt.mp fun earlier => preceded ⟨j, earlier, positive_j⟩) other.symm
      have heavy := tabled.average_le_first queued fun j queued_j other positive_j =>
        average j queued_j positive_j ⟨i, after_first j positive_j other, positive⟩
      refine absurd (head?_eq_some_iff.mpr ⟨⟨tabled.large_of_average_le less heavy, queued⟩, ?_⟩)
        below
      intro j earlier
      have weightless : ¬ 0 < P j := fun positive_j =>
        preceded ⟨j, earlier, (tabled.mass_pos_iff j).mp positive_j⟩
      exact (not_lt.mp weightless).trans_lt zero_lt_one

end Tabled

/-! ## Tables of more slots -/

/-- In a table that stays zero, every slot selects entry 0. -/
theorem select_of_zero (prob : ∀ s < afl.queuedItems, afl.aliasProbability s = 0)
    (aliasOf : ∀ s < afl.queuedItems, afl.aliasTable s = 0) {s : ℕ} (slot : s < afl.queuedItems)
    {p : ℝ} (number : p ∈ Set.Ico (0 : ℝ) 1) : selectNextQueueEntry afl s p = 0 := by
  rw [selectNextQueueEntry, prob s slot, aliasOf s slot, Rat.cast_zero,
    if_neg (not_lt.mpr number.1)]

theorem selectionProbability_of_zero (prob : ∀ s < afl.queuedItems, afl.aliasProbability s = 0)
    (aliasOf : ∀ s < afl.queuedItems, afl.aliasTable s = 0) (some_entry : 0 < afl.queuedItems)
    (i : ℕ) : selectionProbability afl i = if i = 0 then 1 else 0 := by
  have share : (AliasTable.mk afl.aliasProbability afl.aliasTable).share
      (Finset.range afl.queuedItems) i = if i = 0 then (afl.queuedItems : ℚ) else 0 := by
    have each : ∀ s ∈ Finset.range afl.queuedItems,
        (AliasTable.mk afl.aliasProbability afl.aliasTable).gives s i =
          if i = 0 then 1 else 0 := by
      intro s inside
      have slot := Finset.mem_range.mp inside
      simp [AliasTable.gives, prob s slot, aliasOf s slot]
    rw [AliasTable.share, Finset.sum_congr rfl each, Finset.sum_const, Finset.card_range]
    split <;> simp
  rw [selectionProbability_eq_share (t := ⟨afl.aliasProbability, afl.aliasTable⟩) rfl rfl, share]
  · split
    · rw [div_self (Nat.cast_ne_zero.mpr some_entry.ne'), Rat.cast_one]
    · rw [zero_div, Rat.cast_zero]
  · intro s inside
    dsimp only
    rw [prob s (Finset.mem_range.mp inside)]
    exact ⟨le_rfl, zero_le_one⟩

/-- A table that stays zero selects by weight only if all entries but the first are
disabled. -/
theorem selects_of_zero_iff (prob : ∀ s < afl.queuedItems, afl.aliasProbability s = 0)
    (aliasOf : ∀ s < afl.queuedItems, afl.aliasTable s = 0)
    (positive : ∀ i < afl.queuedItems, (afl.queueBuf i).disabled = false → 0 < finalWeight afl i)
    (enabled : ∃ i < afl.queuedItems, (afl.queueBuf i).disabled = false) :
    SelectsByWeight afl ↔
      ∀ i < afl.queuedItems, i ≠ 0 → (afl.queueBuf i).disabled = true := by
  obtain ⟨e, queued_e, enabled_e⟩ := enabled
  have probability := selectionProbability_of_zero prob aliasOf (Nat.zero_lt_of_lt queued_e)
  have nonneg : ∀ i ∈ Finset.range afl.queuedItems, 0 ≤ finalWeight afl i := fun i inside =>
    finalWeight_nonneg (.refl afl) positive (Finset.mem_range.mp inside)
  have total_pos : 0 < ∑ j ∈ Finset.range afl.queuedItems, finalWeight afl j :=
    Finset.sum_pos' nonneg ⟨e, Finset.mem_range.mpr queued_e, positive e queued_e enabled_e⟩
  constructor
  · intro selects i queued later
    by_contra on
    have weight := positive i queued (by simpa using on)
    have equal := selects.proportional i queued
    rw [probability, if_neg later, eq_comm, Rat.cast_eq_zero] at equal
    exact (div_pos weight total_pos).ne' equal
  · intro only
    have first : e = 0 := by
      by_contra later
      rw [only e queued_e later] at enabled_e
      exact Bool.noConfusion enabled_e
    subst first
    have total : ∑ j ∈ Finset.range afl.queuedItems, finalWeight afl j = finalWeight afl 0 :=
      Finset.sum_eq_single_of_mem 0 (Finset.mem_range.mpr queued_e) fun j inside later =>
        finalWeight_of_disabled (only j (Finset.mem_range.mp inside) later)
    refine ⟨fun i queued => ?_, fun i queued disabled s slot p number => ?_⟩
    · rw [probability, total]
      split
      · rename_i same
        rw [same, div_self (total ▸ total_pos.ne'), Rat.cast_one]
      · rename_i later
        rw [finalWeight_of_disabled (only i queued later), zero_div, Rat.cast_zero]
    · rw [select_of_zero prob aliasOf slot number]
      rintro rfl
      rw [enabled_e] at disabled
      exact Bool.noConfusion disabled

/-! ## The selection -/

/-- All enabled entries but the first weigh exactly the average. -/
def OthersAverage (libm : Libm) (afl : AflState) : Prop :=
  ∀ i < afl.queuedItems, (afl.queueBuf i).disabled = false →
    (∃ j < i, (afl.queueBuf j).disabled = false) →
      boostedWeight libm afl i * afl.queuedItems =
        ∑ k ∈ Finset.range afl.queuedItems, boostedWeight libm afl k

/-- A table of up to `2 ^ 31` slots, built for collected weights. -/
theorem Collected.tabled {libm : Libm} {afl weighed : AflState} {P : ℕ → ℚ} {sum : ℚ}
    (collected : Collected libm afl weighed P sum) (fits : afl.queuedItems ≤ 2 ^ 31)
    (enabled : ∃ i < afl.queuedItems, (afl.queueBuf i).disabled = false) :
    ∃ v, Tabled (buildTable weighed P) P sum v := by
  have items := collected.same.queuedItems
  have some_entry : 0 < weighed.queuedItems := by
    obtain ⟨i, queued, -⟩ := enabled
    rw [items]
    exact Nat.zero_lt_of_lt queued
  have positive := collected.sum_pos enabled
  have mass : ∀ i, P i = finalWeight weighed i * weighed.queuedItems / sum := by
    rw [items]
    exact collected.mass
  have weight_nonneg (i : ℕ) (queued : i < weighed.queuedItems) : 0 ≤ finalWeight weighed i :=
    finalWeight_nonneg collected.same collected.positive (items ▸ queued)
  have mass_nonneg (i : ℕ) (queued : i < weighed.queuedItems) : 0 ≤ P i := by
    rw [mass]
    exact div_nonneg (mul_nonneg (weight_nonneg i queued) (Nat.cast_nonneg _)) positive.le
  obtain ⟨v, sound, done, prob, aliasOf⟩ :=
    AliasArrays.table_refines some_entry (items ▸ fits) mass_nonneg
  have sum_le := collected.sum_le
  rw [← items] at sum_le
  exact ⟨v, prob, aliasOf, sound, done, mass, positive, weight_nonneg, sum_le⟩

/-- A table of more slots, built for collected weights. -/
theorem Collected.selects_of_too_many {libm : Libm} {afl weighed : AflState} {P : ℕ → ℚ} {sum : ℚ}
    (collected : Collected libm afl weighed P sum) (narrow : afl.queuedItems < 2 ^ 32)
    (many : 2 ^ 31 < afl.queuedItems)
    (enabled : ∃ i < afl.queuedItems, (afl.queueBuf i).disabled = false) :
    SelectsByWeight (buildTable weighed P) ↔
      ∀ i < afl.queuedItems, i ≠ 0 → (afl.queueBuf i).disabled = true := by
  have same := collected.same.queuedItems
  have items := (AliasArrays.buildTable_queuedItems weighed P).trans same
  have flags (i : ℕ) : ((buildTable weighed P).queueBuf i).disabled = (afl.queueBuf i).disabled :=
    collected.same.disabled i
  have zero (s : ℕ) (slot : s < (buildTable weighed P).queuedItems) :
      (buildTable weighed P).aliasProbability s = 0 ∧ (buildTable weighed P).aliasTable s = 0 :=
    AliasArrays.table_of_too_many (same.trans_lt narrow) (many.trans_eq same.symm)
      (slot.trans_eq (AliasArrays.buildTable_queuedItems weighed P))
  have selects := selects_of_zero_iff (fun s slot => (zero s slot).1)
    (fun s slot => (zero s slot).2)
  simp only [items, flags] at selects
  exact selects collected.positive enabled

/-- The average of the final weights, in terms of the state before. -/
theorem Collected.othersAverage_iff {libm : Libm} {afl weighed : AflState} {P : ℕ → ℚ} {sum : ℚ}
    (collected : Collected libm afl weighed P sum) (low : afl.schedule < .rare) :
    (∀ i < afl.queuedItems, 0 < finalWeight weighed i → (∃ j < i, 0 < finalWeight weighed j) →
      finalWeight weighed i * afl.queuedItems =
        ∑ k ∈ Finset.range afl.queuedItems, finalWeight weighed k) ↔ OthersAverage libm afl := by
  have finals : ∑ k ∈ Finset.range afl.queuedItems, finalWeight weighed k =
      ∑ k ∈ Finset.range afl.queuedItems, boostedWeight libm afl k :=
    Finset.sum_congr rfl fun k inside => collected.boosted low k (Finset.mem_range.mp inside)
  refine forall₂_congr fun i queued => ?_
  have earlier : (∃ j < i, 0 < finalWeight weighed j) ↔
      ∃ j < i, (afl.queueBuf j).disabled = false :=
    exists_congr fun j => and_congr_right fun less => collected.pos_iff (less.trans queued)
  rw [collected.pos_iff queued, earlier, finals, collected.boosted low i queued]

/-- The selection with up to `2 ^ 31` entries. -/
theorem selects_of_few_iff {libm : Libm} {afl after : AflState} (few : afl.queuedItems ≤ 2 ^ 31)
    (enabled : ∃ i < afl.queuedItems, (afl.queueBuf i).disabled = false)
    (done : createAliasTable libm afl = .ok after) :
    SelectsByWeight after ↔
      (∀ i < afl.queuedItems, ¬ Doubled afl i) ∨ OthersAverage libm afl := by
  unfold createAliasTable at done
  obtain ⟨⟨weighed, P⟩, collect, done⟩ := bind_eq_ok_iff.mp done
  obtain ⟨sum, collected⟩ := collectWeights_collected collect
  cases done
  have items := (AliasArrays.buildTable_queuedItems weighed P).trans collected.same.queuedItems
  obtain ⟨v, tabled⟩ := collected.tabled few enabled
  by_cases plain : ∀ i < afl.queuedItems, ¬ Doubled afl i
  · refine iff_of_true (tabled.selects_of_balanced ?_) (Or.inl plain)
    rw [items]
    exact collected.balanced plain
  · rw [or_iff_right plain]
    push Not at plain
    have low : afl.schedule < .rare := by
      obtain ⟨i, -, ⟨mmopt, -⟩, -⟩ := plain
      rw [mmopt]
      decide
    have less := collected.excess plain
    have selects := tabled.selects_of_excess_iff (by rw [items]; exact less)
    rw [items] at selects
    exact selects.trans (collected.othersAverage_iff low)

/-- **After `create_alias_table`, the selection is by weight** exactly when there are at most
`2 ^ 31` entries and no enabled entry has its weight doubled by `MMOPT`, or all enabled entries
but the first weigh the average; with more entries, when all but entry 0 are disabled. -/
theorem selection_by_weight_iff (libm : Libm) (afl after : AflState)
    (narrow : afl.queuedItems < 2 ^ 32)
    (enabled : ∃ i < afl.queuedItems, (afl.queueBuf i).disabled = false)
    (done : createAliasTable libm afl = .ok after) :
    SelectsByWeight after ↔
      (afl.queuedItems ≤ 2 ^ 31 ∧
        ((∀ i < afl.queuedItems, ¬ Doubled afl i) ∨ OthersAverage libm afl)) ∨
      (2 ^ 31 < afl.queuedItems ∧
        ∀ i < afl.queuedItems, i ≠ 0 → (afl.queueBuf i).disabled = true) := by
  by_cases few : afl.queuedItems ≤ 2 ^ 31
  · rw [selects_of_few_iff few enabled done, and_iff_right few]
    exact (or_iff_left fun many => absurd few (not_le.mpr many.1)).symm
  · have many : 2 ^ 31 < afl.queuedItems := not_le.mp few
    unfold createAliasTable at done
    obtain ⟨⟨weighed, P⟩, collect, done⟩ := bind_eq_ok_iff.mp done
    obtain ⟨sum, collected⟩ := collectWeights_collected collect
    cases done
    rw [collected.selects_of_too_many narrow many enabled, and_iff_right many]
    exact (or_iff_right fun fits => few fits.1).symm

/-- Logarithms that are right at 1. -/
def Libm.atOne : Libm :=
  { Libm.identity with
    log := fun n => n - 1
    log2 := fun n => n - 1
    log10 := fun n => n - 1
    log10_nonneg := fun _ positive => sub_nonneg.mpr (Nat.one_le_cast.mpr positive) }

/-- Two calibrated entries of which one was fuzzed, and a disabled one. -/
def exploreQueue : AflState where
  mapSize := 8
  queuedItems := 3
  totalCalCycles := 7
  queueBuf := fun i =>
    { len := 1, bitmapSize := 1, execUs := 1, wasFuzzed := i == 0, disabled := i == 2 }

theorem selection_by_weight_explore :
    ∃ after, createAliasTable Libm.atOne exploreQueue = .ok after ∧ SelectsByWeight after := by
  have succeeds : (createAliasTable Libm.atOne exploreQueue).isOk = true := by decide +kernel
  cases done : createAliasTable Libm.atOne exploreQueue with
  | error fault =>
      rw [done] at succeeds
      cases succeeds
  | ok after =>
      refine ⟨after, rfl, (selection_by_weight_iff Libm.atOne exploreQueue after (by decide)
        ⟨0, by decide, rfl⟩ done).mpr ?_⟩
      exact Or.inl ⟨by decide, Or.inl (by decide)⟩

/-- Two calibrated entries under `MMOPT`, of which the second was discovered. -/
def mmoptQueue : AflState where
  mapSize := 8
  queuedItems := 2
  queuedDiscovered := 1
  schedule := .mmopt
  totalCalCycles := 7
  queueBuf := fun _ => { len := 1, bitmapSize := 1, execUs := 1 }

/-- The weight of the second entry is twice that of the first, but both are selected with
probability 1/2. -/
theorem selection_of_doubled_weight :
    ∃ after, createAliasTable Libm.atOne mmoptQueue = .ok after ∧ ¬ SelectsByWeight after := by
  have succeeds : (createAliasTable Libm.atOne mmoptQueue).isOk = true := by decide +kernel
  cases done : createAliasTable Libm.atOne mmoptQueue with
  | error fault =>
      rw [done] at succeeds
      cases succeeds
  | ok after =>
      refine ⟨after, rfl, ?_⟩
      rw [selects_of_few_iff (by decide) ⟨0, by decide, rfl⟩ done, not_or]
      refine ⟨fun plain => plain 1 (by decide) (by decide), fun others => ?_⟩
      have average := others 1 (by decide) rfl ⟨0, by decide, rfl⟩
      exact absurd average (by decide +kernel)

end GreenFuzz.AflFuzz
