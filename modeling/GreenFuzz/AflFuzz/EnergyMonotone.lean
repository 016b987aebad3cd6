import GreenFuzz.AflFuzz.ScoreSafety
import Mathlib.Algebra.Order.Floor.Ring
import Mathlib.Data.Rat.Floor
import Mathlib.Tactic.GCongr
import Mathlib.Tactic.Linarith
import Mathlib.Tactic.NormNum
import Mathlib.Tactic.Positivity

/-!
# A cheaper entry is rated better

Energy enters the ratings of a queue entry at three places: a clamped line for each
resource in `calculate_score`, a clamped logarithmic bonus in `energy_bonus`, and the fav
factor, which is divided by that bonus. Each of them is antitone in a positive cost, and
the bounds of the clamps decide when the conversions back to an integer keep the order.

The main result is `energy_monotone`. The scores are products of at most 25 with a value that
the `u8` `havoc_max_mult` bounds, so they fit their type. The quotient of the fav factor fits
a `u64` unless the size of the entry is huge, and then the order of two fav factors can be
lost (`fav_factor_order_lost`).
-/

set_option autoImplicit false

namespace GreenFuzz.AflFuzz

open Library

/-! ## Conversions to integers -/

/-- A conversion that does not overflow rounds down. -/
theorem truncate_of_lt {w : ℕ} {x : ℚ} (fits : x < 2 ^ w) : truncate w x = ⌊x⌋₊ := by
  have floor : x.floor.toNat = ⌊x⌋₊ := rfl
  have small : ⌊x⌋₊ < 2 ^ w := (Nat.floor_lt' (by positivity)).mpr (by exact_mod_cast fits)
  simp only [truncate, floor]
  exact Nat.mod_eq_of_lt small

/-- A conversion that does not overflow keeps the order. -/
theorem truncate_le_truncate {w : ℕ} {x y : ℚ} (ordered : x ≤ y) (fits : y < 2 ^ w) :
    truncate w x ≤ truncate w y := by
  rw [truncate_of_lt fits, truncate_of_lt (ordered.trans_lt fits)]
  exact Nat.floor_mono ordered

/-! ## The line of one resource -/

theorem energyMultiplier_eq {low high cost : ℕ} (range : high ≠ low) (measured : 0 < cost) :
    energyMultiplier low high cost = min 5 (max (linearMultiplier low high cost) 0.2) := by
  simp only [energyMultiplier, if_neg range, if_neg measured.ne', max_def_lt, min_def_lt]

/-- The multiplier of a resource is between 0.2 and 5. -/
theorem energyMultiplier_mem (low high cost : ℕ) :
    0.2 ≤ energyMultiplier low high cost ∧ energyMultiplier low high cost ≤ 5 := by
  simp only [energyMultiplier]
  split
  · norm_num
  · rw [← max_def_lt, ← min_def_lt]
    exact ⟨le_min (by norm_num) (le_max_right _ _), min_le_left _ _⟩

/-- The line falls, whether or not the range is ordered. -/
theorem linearMultiplier_antitone (low high : ℕ) : Antitone (linearMultiplier low high) := by
  intro first second cheaper
  have slope : ((0.2 : ℚ) - 5) / u64Sub high low ≤ 0 :=
    div_nonpos_of_nonpos_of_nonneg (by norm_num) (Nat.cast_nonneg _)
  have costs : (first : ℚ) ≤ second := Nat.cast_le.mpr cheaper
  have falls := mul_le_mul_of_nonpos_left costs slope
  simp only [linearMultiplier]
  linarith

/-- A measured cost is multiplied with less when it is higher. -/
theorem energyMultiplier_antitone (low high : ℕ) {first second : ℕ} (measured : 0 < first)
    (cheaper : first ≤ second) :
    energyMultiplier low high second ≤ energyMultiplier low high first := by
  by_cases range : high = low
  · simp only [energyMultiplier, if_pos range, le_refl]
  · rw [energyMultiplier_eq range measured, energyMultiplier_eq range (measured.trans_le cheaper)]
    exact min_le_min_left _ (max_le_max_right _ (linearMultiplier_antitone low high cheaper))

/-! ## The bonus -/

section Bonus

variable {libm : Libm} {afl : AflState}

theorem energyBonus_eq {e : ℕ} (measured : 0 < e) (range : energyMin afl < energyMax afl) :
    energyBonus libm afl e =
      min 1.25 (max (1 + 0.25 * (0.5 - min 1 (max (energyNorm libm afl e) 0))) 0.8) := by
  have used : ¬ (e = 0 ∨ energyMax afl ≤ energyMin afl) := by omega
  simp only [energyBonus, if_neg used, max_def_lt, min_def_lt]

/-- The normalised energy rises with the energy. -/
theorem energyNorm_monotone : Monotone (energyNorm libm afl) := by
  intro first second cheaper
  have spread : 0 ≤ libm.log1p (energyMax afl - energyMin afl) := by
    rw [← libm.log1p_zero]
    exact libm.log1p_strictMono.monotone (Nat.zero_le _)
  have excess : (if energyMin afl < first then first - energyMin afl else 0) ≤
      if energyMin afl < second then second - energyMin afl else 0 := by
    split <;> split <;> omega
  simp only [energyNorm]
  exact div_le_div_of_nonneg_right (libm.log1p_strictMono.monotone excess) spread

/-- **The bonus falls** with a positive energy. -/
theorem energyBonus_antitone {first second : ℕ} (measured : 0 < first)
    (cheaper : first ≤ second) : energyBonus libm afl second ≤ energyBonus libm afl first := by
  by_cases range : energyMin afl < energyMax afl
  · rw [energyBonus_eq measured range, energyBonus_eq (measured.trans_le cheaper) range]
    have norm : energyNorm libm afl first ≤ energyNorm libm afl second :=
      energyNorm_monotone cheaper
    gcongr
  · simp only [energyBonus, not_lt.mp range, or_true, if_true, le_refl]

/-- The second clamp of the bonus never acts: it is at least 7/8. -/
theorem energyBonus_ge (libm : Libm) (afl : AflState) (e : ℕ) :
    7 / 8 ≤ energyBonus libm afl e := by
  by_cases neutral : e = 0 ∨ energyMax afl ≤ energyMin afl
  · simp only [energyBonus, if_pos neutral]
    norm_num
  · rw [energyBonus_eq (by omega) (by omega)]
    have most : min 1 (max (energyNorm libm afl e) 0) ≤ 1 := min_le_left _ _
    refine le_min (by norm_num) (le_max_of_le_left ?_)
    linarith

end Bonus

/-! ## Two entries that differ in one cost -/

/-- The first entry costs something of the resource, and at most what the second costs.
Apart from that cost and the position in the queue the entries are equal. -/
structure CheaperEntry (first second : QueueEntry) (resource : Resource) : Prop where
  measured : 0 < first.cost resource
  cheaper : first.cost resource ≤ second.cost resource
  same : first = { second.setCost resource (first.cost resource) with id := first.id }

/-- The sum of the costs of an entry, as the update functions compute it. -/
def energyOf (q : QueueEntry) : ℕ := u64 (q.cpuEnergyCost + q.memEnergyCost)

/-- The fav factor before it is divided by the bonus. -/
def sizeFactor (afl : AflState) (q : QueueEntry) : ℕ :=
  if Schedule.rare ≤ afl.schedule ∨ afl.fixedSeed then u32 (q.len <<< 2)
  else u64 (q.execUs * q.len)

/-- The part of `calculate_score` before the energy heuristic. -/
def scoreBeforeEnergy (libm : Libm) (afl : AflState) (q : QueueEntry) : Except ScoreFault ℕ := do
  let avgExecUs ← checkedDiv afl.totalCalUs (orOne (u32 afl.totalCalCycles))
  let avgBitmapSize ← checkedDiv afl.totalBitmapSize (orOne (u32 afl.totalBitmapEntries))
  let perf := bitmapScore q (u32 avgBitmapSize) (speedScore afl q (u32 avgExecUs))
  let scheduled ← scheduleScore libm afl q (depthScore q (handicapScore q perf).1)
  return limitScore afl (moptScore afl q (applyFactor afl scheduled.1 scheduled.2))

section Entries

variable {libm : Libm} {afl : AflState} {first second : QueueEntry} {resource : Resource}

theorem calculateScore_eq (q : ℕ) :
    calculateScore libm afl q = (do
      let perf ← scoreBeforeEnergy libm afl (afl.queueBuf q)
      let perf ← energyScore afl (afl.queueBuf q) perf
      let late := handicapScore (afl.queueBuf q)
        (bitmapScore (afl.queueBuf q)
          (u32 (afl.totalBitmapSize / orOne (u32 afl.totalBitmapEntries)))
          (speedScore afl (afl.queueBuf q)
            (u32 (afl.totalCalUs / orOne (u32 afl.totalCalCycles)))))
      return (perf, afl.modifyEntry q fun e => { e with handicap := late.2 })) := by
  simp only [calculateScore, scoreBeforeEnergy, checkedDiv_of_ne_zero (orOne_ne_zero _)]
  simp only [bind_assoc, pure_bind]
  rfl

/-- The ratings before energy do not read the costs. -/
theorem CheaperEntry.scoreBeforeEnergy_eq (pair : CheaperEntry first second resource) :
    scoreBeforeEnergy libm afl first = scoreBeforeEnergy libm afl second := by
  rw [pair.same]
  cases resource <;> rfl

theorem CheaperEntry.sizeFactor_eq (pair : CheaperEntry first second resource) :
    sizeFactor afl first = sizeFactor afl second := by
  rw [pair.same]
  cases resource <;> rfl

/-- The second entry has a positive cost as well. -/
theorem CheaperEntry.measured_second (pair : CheaperEntry first second resource) :
    0 < second.cost resource :=
  pair.measured.trans_le pair.cheaper

/-- The costs are those of the second entry, or smaller and positive. -/
theorem CheaperEntry.cost_cases (pair : CheaperEntry first second resource) (other : Resource) :
    first.cost other = second.cost other ∨
      0 < first.cost other ∧ first.cost other ≤ second.cost other := by
  by_cases here : other = resource
  · exact Or.inr (here ▸ ⟨pair.measured, pair.cheaper⟩)
  · refine Or.inl ?_
    have same : first.cost other =
        (second.setCost resource (first.cost resource)).cost other := by
      conv_lhs => rw [pair.same]
      cases other <;> rfl
    rw [same, QueueEntry.cost_setCost, if_neg here]

/-- The energy of the first entry is positive, and at most that of the second. -/
theorem CheaperEntry.energyOf_le (pair : CheaperEntry first second resource)
    (sum : second.cpuEnergyCost + second.memEnergyCost < 2 ^ 64) :
    0 < energyOf first ∧ energyOf first ≤ energyOf second := by
  have cpu : first.cpuEnergyCost ≤ second.cpuEnergyCost :=
    (pair.cost_cases .cpu).elim le_of_eq And.right
  have mem : first.memEnergyCost ≤ second.memEnergyCost :=
    (pair.cost_cases .mem).elim le_of_eq And.right
  have some : 0 < first.cpuEnergyCost + first.memEnergyCost := by
    have measured := pair.measured
    cases resource with
    | cpu => exact Nat.add_pos_left measured _
    | mem => exact Nat.add_pos_right _ measured
  simp only [energyOf, u64]
  rw [Nat.mod_eq_of_lt sum, Nat.mod_eq_of_lt ((Nat.add_le_add cpu mem).trans_lt sum)]
  exact ⟨some, Nat.add_le_add cpu mem⟩

theorem favFactor_of_measured (measured : 0 < second.cost resource) :
    favFactor libm afl second =
      truncate 64 (sizeFactor afl second / energyBonus libm afl (energyOf second)) := by
  have some : second.cpuEnergyCost ≠ 0 ∨ second.memEnergyCost ≠ 0 := by
    cases resource with
    | cpu => exact Or.inl measured.ne'
    | mem => exact Or.inr measured.ne'
  simp only [favFactor, if_pos some]
  rfl

/-- **The fav factor of the cheaper entry is at most that of the other**, if the quotient
fits. -/
theorem CheaperEntry.favFactor_le (pair : CheaperEntry first second resource)
    (sum : second.cpuEnergyCost + second.memEnergyCost < 2 ^ 64)
    (fits : sizeFactor afl second / energyBonus libm afl (energyOf second) < 2 ^ 64) :
    favFactor libm afl first ≤ favFactor libm afl second := by
  have ⟨measured, cheaper⟩ := pair.energyOf_le sum
  have least := energyBonus_ge libm afl (energyOf second)
  have bonus : energyBonus libm afl (energyOf second) ≤ energyBonus libm afl (energyOf first) :=
    energyBonus_antitone measured cheaper
  rw [favFactor_of_measured pair.measured, favFactor_of_measured pair.measured_second,
    pair.sizeFactor_eq]
  refine truncate_le_truncate ?_ fits
  gcongr

/-! ## The score -/

/-- The product of the multipliers of both resources. -/
def energyWeight (afl : AflState) (q : QueueEntry) : ℚ :=
  energyMultiplier afl.minCpuEnergy afl.maxCpuEnergy q.cpuEnergyCost *
    energyMultiplier afl.minMemEnergy afl.maxMemEnergy q.memEnergyCost

/-- The score that the energy heuristic makes of `perf`. -/
def weightedScore (afl : AflState) (q : QueueEntry) (perf : ℕ) : ℕ :=
  let perf := limitScore afl (truncate 32 (perf * energyWeight afl q))
  if afl.schedule ≠ .coe ∧ perf < 1 then 1 else perf

theorem energyWeight_mem (q : QueueEntry) : 0 ≤ energyWeight afl q ∧ energyWeight afl q ≤ 25 := by
  have cpu := energyMultiplier_mem afl.minCpuEnergy afl.maxCpuEnergy q.cpuEnergyCost
  have mem := energyMultiplier_mem afl.minMemEnergy afl.maxMemEnergy q.memEnergyCost
  simp only [energyWeight]
  constructor
  · exact mul_nonneg (by linarith) (by linarith)
  · calc _ ≤ (5 : ℚ) * 5 := mul_le_mul cpu.2 mem.2 (by linarith) (by norm_num)
      _ = 25 := by norm_num

/-- The cheaper entry has the larger weight. -/
theorem CheaperEntry.energyWeight_le (pair : CheaperEntry first second resource) :
    energyWeight afl second ≤ energyWeight afl first := by
  have falls (other : Resource) (low high : ℕ) :
      energyMultiplier low high (second.cost other) ≤
        energyMultiplier low high (first.cost other) := by
    rcases pair.cost_cases other with same | ⟨measured, cheaper⟩
    · rw [same]
    · exact energyMultiplier_antitone low high measured cheaper
  have cpu := energyMultiplier_mem afl.minCpuEnergy afl.maxCpuEnergy first.cpuEnergyCost
  have mem := energyMultiplier_mem afl.minMemEnergy afl.maxMemEnergy second.memEnergyCost
  exact mul_le_mul (falls .cpu _ _) (falls .mem _ _) (by linarith) (by linarith)

theorem limitScore_eq (perf : ℕ) :
    limitScore afl perf = min (u32 (afl.havocMaxMult.toNat * 100)) perf :=
  (min_def_lt _ _).symm

theorem weightedScore_of_coe {perf : ℕ} (schedule : afl.schedule = .coe) :
    weightedScore afl second perf =
      min (u32 (afl.havocMaxMult.toNat * 100)) (truncate 32 (perf * energyWeight afl second)) := by
  simp only [weightedScore, schedule, limitScore_eq, ne_eq, not_true, false_and, if_false]

theorem weightedScore_of_not_coe {perf : ℕ} (schedule : afl.schedule ≠ .coe) :
    weightedScore afl second perf =
      max (min (u32 (afl.havocMaxMult.toNat * 100)) (truncate 32 (perf * energyWeight afl second)))
        1 := by
  simp only [weightedScore, limitScore_eq, ne_eq, schedule, not_false_eq_true, true_and,
    max_def_lt]

/-- The heuristic succeeds when a calibration cycle was counted. -/
theorem energyScore_of_calibrated {perf : ℕ} (calibrated : u128 afl.totalCalCycles ≠ 0) :
    energyScore afl second perf = .ok (weightedScore afl second perf) := by
  simp only [energyScore, checkedDiv_of_ne_zero calibrated, weightedScore, energyWeight, mul_assoc]
  rfl

/-- What comes before the heuristic is at most the limit. -/
theorem scoreBeforeEnergy_le {perf : ℕ} (done : scoreBeforeEnergy libm afl second = .ok perf) :
    perf ≤ u32 (afl.havocMaxMult.toNat * 100) := by
  simp only [scoreBeforeEnergy, checkedDiv_of_ne_zero (orOne_ne_zero _), bind_eq_ok_iff] at done
  obtain ⟨_, -, _, -, scheduled, -, result⟩ := done
  cases result
  rw [limitScore_eq]
  exact min_le_left _ _

/-- What comes before the heuristic fails only in the switch over the schedule. -/
theorem scoreBeforeEnergy_error {fault : ScoreFault}
    (failed : scoreBeforeEnergy libm afl second = .error fault) :
    ∃ perf, scheduleScore libm afl second perf = .error fault := by
  simp only [scoreBeforeEnergy, checkedDiv_of_ne_zero (orOne_ne_zero _), bind_eq_error_iff,
    reduceCtorEq, false_or, Except.ok.injEq, exists_eq_left'] at failed
  rcases failed with switch | ⟨scheduled, -, never⟩
  · exact ⟨_, switch⟩
  · cases never

/-- The outcome of `calculate_score` when the part before the heuristic succeeds. -/
theorem calculateScore_of_ok {q perf : ℕ} (calibrated : u128 afl.totalCalCycles ≠ 0)
    (before : scoreBeforeEnergy libm afl (afl.queueBuf q) = .ok perf) :
    ∃ after, calculateScore libm afl q = .ok (weightedScore afl (afl.queueBuf q) perf, after) := by
  rw [calculateScore_eq, before]
  refine ⟨_, bind_eq_ok_iff.mpr ⟨perf, rfl, bind_eq_ok_iff.mpr ⟨_, ?_, rfl⟩⟩⟩
  exact energyScore_of_calibrated calibrated

theorem calculateScore_of_error {q : ℕ} {fault : ScoreFault}
    (before : scoreBeforeEnergy libm afl (afl.queueBuf q) = .error fault) :
    calculateScore libm afl q = .error fault := by
  rw [calculateScore_eq, before]
  rfl

/-- The score of the cheaper entry is at least that of the other, if the products fit. -/
theorem CheaperEntry.weightedScore_le (pair : CheaperEntry first second resource) {perf : ℕ}
    (fits : perf * 25 < 2 ^ 32) :
    weightedScore afl second perf ≤ weightedScore afl first perf := by
  have small : (perf : ℚ) * 25 < 2 ^ 32 := by exact_mod_cast fits
  have product : truncate 32 (perf * energyWeight afl second) ≤
      truncate 32 (perf * energyWeight afl first) := by
    refine truncate_le_truncate ?_ ?_
    · exact mul_le_mul_of_nonneg_left pair.energyWeight_le (Nat.cast_nonneg _)
    · have weight : energyWeight afl first ≤ 25 := (energyWeight_mem first).2
      have most := mul_le_mul_of_nonneg_left weight (Nat.cast_nonneg (α := ℚ) perf)
      linarith
  have limited := min_le_min_left (u32 (afl.havocMaxMult.toNat * 100)) product
  by_cases schedule : afl.schedule = .coe
  · simpa only [weightedScore_of_coe schedule] using limited
  · simpa only [weightedScore_of_not_coe schedule] using max_le_max_right 1 limited

/-- A score is between 1 and the limit, unless the schedule is `COE`. -/
theorem weightedScore_mem {perf : ℕ} (limit : 1 ≤ u32 (afl.havocMaxMult.toNat * 100))
    (schedule : afl.schedule ≠ .coe) :
    1 ≤ weightedScore afl second perf ∧
      weightedScore afl second perf ≤ u32 (afl.havocMaxMult.toNat * 100) := by
  rw [weightedScore_of_not_coe schedule]
  exact ⟨le_max_right _ _, max_le (min_le_left _ _) limit⟩

end Entries

/-- **The energy heuristic is monotone.** Of two entries that differ in one positive cost,
the cheaper one has at least the score of the other, at least its bonus, and at most its
fav factor, if the quotient of that one fits a `u64`; both scores are in range. The scores are
missing together, when the switch over the schedule fails. -/
theorem energy_monotone (libm : Libm) (afl : AflState) (q₁ q₂ : ℕ) (resource : Resource)
    (pair : CheaperEntry (afl.queueBuf q₁) (afl.queueBuf q₂) resource)
    (calibrated : 0 < afl.totalCalCycles ∧ afl.totalCalCycles < 2 ^ 64)
    (sum : (afl.queueBuf q₂).cpuEnergyCost + (afl.queueBuf q₂).memEnergyCost < 2 ^ 64)
    (limit : 1 ≤ afl.havocMaxMult.toNat) :
    ((∃ fault perf, scheduleScore libm afl (afl.queueBuf q₂) perf = .error fault ∧
        calculateScore libm afl q₁ = .error fault ∧ calculateScore libm afl q₂ = .error fault) ∨
      ∃ score₁ score₂ afl₁ afl₂, calculateScore libm afl q₁ = .ok (score₁, afl₁) ∧
        calculateScore libm afl q₂ = .ok (score₂, afl₂) ∧ score₂ ≤ score₁ ∧
        (afl.schedule ≠ .coe → 1 ≤ score₂ ∧ score₁ ≤ afl.havocMaxMult.toNat * 100)) ∧
      energyBonus libm afl (energyOf (afl.queueBuf q₂)) ≤
        energyBonus libm afl (energyOf (afl.queueBuf q₁)) ∧
      (sizeFactor afl (afl.queueBuf q₂) / energyBonus libm afl (energyOf (afl.queueBuf q₂)) <
          2 ^ 64 →
        favFactor libm afl (afl.queueBuf q₁) ≤ favFactor libm afl (afl.queueBuf q₂)) := by
  have ⟨measured, cheaper⟩ := pair.energyOf_le sum
  refine ⟨?_, energyBonus_antitone measured cheaper, pair.favFactor_le sum⟩
  have counted : u128 afl.totalCalCycles ≠ 0 := by
    simp only [u128]
    omega
  have byte : afl.havocMaxMult.toNat < 2 ^ 8 := afl.havocMaxMult.isLt
  have limitFits : u32 (afl.havocMaxMult.toNat * 100) = afl.havocMaxMult.toNat * 100 :=
    u32_of_lt (by omega)
  cases before : scoreBeforeEnergy libm afl (afl.queueBuf q₂) with
  | error fault =>
      obtain ⟨perf, switch⟩ := scoreBeforeEnergy_error before
      exact Or.inl ⟨fault, perf, switch,
        calculateScore_of_error (pair.scoreBeforeEnergy_eq ▸ before),
        calculateScore_of_error before⟩
  | ok perf =>
      have atMost := limitFits ▸ scoreBeforeEnergy_le before
      have ordered : weightedScore afl (afl.queueBuf q₂) perf ≤
          weightedScore afl (afl.queueBuf q₁) perf := pair.weightedScore_le (by omega)
      obtain ⟨afl₁, scored₁⟩ :=
        calculateScore_of_ok counted (pair.scoreBeforeEnergy_eq.trans before)
      obtain ⟨afl₂, scored₂⟩ := calculateScore_of_ok counted before
      refine Or.inr ⟨_, _, afl₁, afl₂, scored₁, scored₂, ordered, fun schedule => ?_⟩
      rw [← limitFits]
      exact ⟨(weightedScore_mem (by omega) schedule).1, (weightedScore_mem (by omega) schedule).2⟩

/-- Two entries of one byte, one that costs 10 and a dearer one, in a range up to 100. -/
def twoCosts (execUs dear : ℕ) : AflState where
  mapSize := 8
  totalCalCycles := 1
  maxCpuEnergy := 100
  queuedItems := 2
  queueBuf := fun q => { id := q, len := 1, execUs, cpuEnergyCost := if q = 0 then 10 else dear }

theorem twoCosts_cheaper (execUs : ℕ) {dear : ℕ} (more : 10 ≤ dear) :
    CheaperEntry ((twoCosts execUs dear).queueBuf 0) ((twoCosts execUs dear).queueBuf 1) .cpu :=
  ⟨Nat.succ_pos 9, more, rfl⟩

theorem energy_monotone_twoCosts :
    ∃ score₁ score₂, (calculateScore Libm.identity (twoCosts 800 100) 0).map Prod.fst =
        .ok score₁ ∧
      (calculateScore Libm.identity (twoCosts 800 100) 1).map Prod.fst = .ok score₂ ∧
      score₂ ≤ score₁ ∧ 1 ≤ score₂ ∧ score₁ ≤ 6400 ∧
      favFactor Libm.identity (twoCosts 800 100) ((twoCosts 800 100).queueBuf 0) ≤
        favFactor Libm.identity (twoCosts 800 100) ((twoCosts 800 100).queueBuf 1) := by
  obtain ⟨scores, -, factors⟩ := energy_monotone Libm.identity (twoCosts 800 100) 0 1 .cpu
    (twoCosts_cheaper _ (by decide)) (by decide) (by decide) (by decide)
  rcases scores with ⟨fault, perf, switch, -⟩ | ⟨score₁, score₂, _, _, first, second, le, mem⟩
  · cases switch
  · obtain ⟨least, most⟩ := mem (by decide)
    exact ⟨score₁, score₂, by rw [first]; rfl, by rw [second]; rfl, le, least, most,
      factors (by decide +kernel)⟩

/-- The longest time makes the quotient of the dearer entry larger than any `u64`, and its fav
factor is the lower one. -/
theorem fav_factor_order_lost :
    CheaperEntry ((twoCosts (2 ^ 64 - 1) 100).queueBuf 0)
        ((twoCosts (2 ^ 64 - 1) 100).queueBuf 1) .cpu ∧
      0 < (twoCosts (2 ^ 64 - 1) 100).totalCalCycles ∧
      1 ≤ (twoCosts (2 ^ 64 - 1) 100).havocMaxMult.toNat ∧
      favFactor Libm.identity (twoCosts (2 ^ 64 - 1) 100) ((twoCosts (2 ^ 64 - 1) 100).queueBuf 1) <
        favFactor Libm.identity (twoCosts (2 ^ 64 - 1) 100)
          ((twoCosts (2 ^ 64 - 1) 100).queueBuf 0) :=
  ⟨twoCosts_cheaper _ (by decide), by decide, by decide, by decide +kernel⟩

end GreenFuzz.AflFuzz
