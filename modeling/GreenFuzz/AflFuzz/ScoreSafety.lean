import GreenFuzz.AflFuzz.CalculateScore
import GreenFuzz.AflFuzz.Calibrate
import GreenFuzz.Library.Fallible

/-!
# When the performance score divides by zero

`calculate_score` replaces the two counters it averages over by 1 when they are 0. The
energy heuristic divides by `total_cal_cycles` itself, and the schedules `LIN` and `QUAD`
divide by a hit counter plus one, which is 0 when the saturating counter is full. These
are all the divisions by zero of the source (`calculateScore_traps_iff`). Each is undefined, and a
build that drops a quotient nobody uses does not trap there.

`total_cal_cycles` is 0 at start and only a completed calibration adds to it. So after start-up
without calibration, the first score divides by zero (`score_after_skipped_calibration`).
-/

set_option autoImplicit false

namespace GreenFuzz.AflFuzz

open Library

/-! ## One call -/

theorem orOne_ne_zero (n : ℕ) : orOne n ≠ 0 := by
  unfold orOne
  split <;> omega

theorem checkedDiv_of_ne_zero {n d : ℕ} (nonzero : d ≠ 0) : checkedDiv n d = .ok (n / d) :=
  if_neg nonzero

theorem checkedDiv_eq_error_iff {n d : ℕ} {fault : ScoreFault} :
    checkedDiv n d = .error fault ↔ d = 0 ∧ fault = .divisionByZero := by
  unfold checkedDiv
  split
  · rename_i zero
    constructor
    · intro failed
      cases failed
      exact ⟨zero, rfl⟩
    · rintro ⟨-, rfl⟩
      rfl
  · rename_i nonzero
    simp [nonzero]

/-- The divisor of the schedules `LIN` and `QUAD` is used and is 0: the hit counter of
the entry is full. -/
def DivisorWraps (afl : AflState) (q : QueueEntry) : Prop :=
  (afl.schedule = .lin ∨ afl.schedule = .quad) ∧ q.fuzzLevel ≠ 0 ∧
    u32 (afl.nFuzz q.nFuzzEntry + 1) = 0

instance (afl : AflState) (q : QueueEntry) : Decidable (DivisorWraps afl q) :=
  inferInstanceAs (Decidable ((_ ∨ _) ∧ _ ∧ _))

variable {libm : Libm} {afl : AflState}

theorem hitFactor_eq_error_iff {q : QueueEntry} {dividend : ℕ} {fault : ScoreFault} :
    hitFactor afl q dividend = .error fault ↔
      (q.fuzzLevel ≠ 0 ∧ u32 (afl.nFuzz q.nFuzzEntry + 1) = 0) ∧ fault = .divisionByZero := by
  unfold hitFactor
  by_cases fuzzed : q.fuzzLevel = 0
  · simp [fuzzed]
  · rw [if_neg fuzzed, bind_eq_error_iff, checkedDiv_eq_error_iff]
    simp [fuzzed, pure, Except.pure]

/-- An enabled queue entry is one of those that count for the mean. -/
theorem enabledEntries_length_pos {q : ℕ} (queued : q < afl.queuedItems)
    (enabled : (afl.queueBuf q).disabled = false) : (enabledEntries afl).length ≠ 0 := by
  have member : q ∈ enabledEntries afl :=
    List.mem_filter.mpr ⟨List.mem_range.mpr queued, by simp [enabled]⟩
  exact (List.length_pos_of_mem member).ne'

/-- The switch over the schedule fails on a full hit counter, and on nothing else. -/
theorem scheduleScore_eq_error_iff {q perf : ℕ} (queued : q < afl.queuedItems)
    (enabled : (afl.queueBuf q).disabled = false) {fault : ScoreFault} :
    scheduleScore libm afl (afl.queueBuf q) perf = .error fault ↔
      DivisorWraps afl (afl.queueBuf q) ∧ fault = .divisionByZero := by
  have counted := enabledEntries_length_pos queued enabled
  unfold scheduleScore DivisorWraps
  cases schedule : afl.schedule with
  | coe =>
      have mean : ∃ factor, coeFactor libm afl (afl.queueBuf q) = .ok factor := by
        unfold coeFactor
        split
        · exact ⟨_, rfl⟩
        · dsimp only
          rw [if_neg counted]
          split <;> exact ⟨_, rfl⟩
      obtain ⟨factor, known⟩ := mean
      simp [known, pure, Except.pure, bind, Except.bind]
  | lin => simp [bind_eq_error_iff, hitFactor_eq_error_iff, pure, Except.pure]
  | quad => simp [bind_eq_error_iff, hitFactor_eq_error_iff, pure, Except.pure]
  | _ => simp

theorem scheduleScore_of_not_wraps {q perf : ℕ} (queued : q < afl.queuedItems)
    (enabled : (afl.queueBuf q).disabled = false)
    (fits : ¬ DivisorWraps afl (afl.queueBuf q)) :
    ∃ scored, scheduleScore libm afl (afl.queueBuf q) perf = .ok scored := by
  cases result : scheduleScore libm afl (afl.queueBuf q) perf with
  | ok scored => exact ⟨scored, rfl⟩
  | error fault =>
      exact absurd ((scheduleScore_eq_error_iff queued enabled).mp result).1 fits

theorem energyScore_eq_error_iff {q : QueueEntry} {perf : ℕ} {fault : ScoreFault} :
    energyScore afl q perf = .error fault ↔
      u128 afl.totalCalCycles = 0 ∧ fault = .divisionByZero := by
  unfold energyScore
  by_cases cycles : u128 afl.totalCalCycles = 0
  · simp [checkedDiv, cycles, bind, Except.bind, eq_comm]
  · simp [checkedDiv, cycles, bind, Except.bind, pure, Except.pure]

/-- `calculate_score` of an enabled queue entry traps exactly when no calibration cycle was
counted, or when the hit counter of the entry is full in the schedules that divide by
it. -/
theorem calculateScore_traps_iff {q : ℕ} (queued : q < afl.queuedItems)
    (enabled : (afl.queueBuf q).disabled = false) :
    calculateScore libm afl q = .error .divisionByZero ↔
      u128 afl.totalCalCycles = 0 ∨ DivisorWraps afl (afl.queueBuf q) := by
  unfold calculateScore
  rw [checkedDiv_of_ne_zero (orOne_ne_zero _), checkedDiv_of_ne_zero (orOne_ne_zero _)]
  simp only [bind_eq_error_iff, reduceCtorEq, false_or, Except.ok.injEq, exists_eq_left',
    scheduleScore_eq_error_iff queued enabled, energyScore_eq_error_iff, and_true, pure,
    Except.pure, and_false, exists_false, or_false]
  constructor
  · rintro (wraps | ⟨_, -, zero⟩)
    · exact Or.inr wraps
    · exact Or.inl zero
  · intro traps
    by_cases wraps : DivisorWraps afl (afl.queueBuf q)
    · exact Or.inl wraps
    · obtain ⟨scored, result⟩ := scheduleScore_of_not_wraps queued enabled wraps
      exact Or.inr ⟨scored, result, traps.resolve_right wraps⟩

/-! ## Runs -/

/-- The update of the path frequency in `save_if_interesting`. -/
def countPath (afl : AflState) (cksum : ℕ) : AflState :=
  if Schedule.fast ≤ afl.schedule ∧ afl.schedule ≤ .rare then
    if afl.nFuzz (cksum % nFuzzSize) < 0xFFFFFFFF then
      { afl with
        nFuzz := Function.update afl.nFuzz (cksum % nFuzzSize)
          (afl.nFuzz (cksum % nFuzzSize) + 1) }
    else afl
  else afl

theorem countPath_totalCalCycles (afl : AflState) (cksum : ℕ) :
    (countPath afl cksum).totalCalCycles = afl.totalCalCycles := by
  unfold countPath
  split
  · split <;> rfl
  · rfl

/-- The cycles that a calibration adds: `stage_max` if it completes, none if it is
aborted. -/
def completedCycles (P : Platform) (afl : AflState) (q : ℕ) (input : CalibrationInput) : ℕ :=
  if (calibrationLoop P afl q input).aborted then 0 else (calibrationLoop P afl q input).stageMax

/-- Only a completed calibration adds to `total_cal_cycles`. -/
theorem calibrateCase_totalCalCycles (P : Platform) (afl : AflState) (q : ℕ)
    (input : CalibrationInput) :
    (calibrateCase P afl q input).2.totalCalCycles =
      if (calibrationLoop P afl q input).aborted then afl.totalCalCycles
      else u64 (afl.totalCalCycles + (calibrationLoop P afl q input).stageMax) := by
  have closed (c : Calibration) : (closeCalibration q c).totalCalCycles = c.afl.totalCalCycles := by
    unfold closeCalibration
    dsimp only
    split <;> split <;> rfl
  have loop : (calibrationLoop P afl q input).afl.totalCalCycles = afl.totalCalCycles :=
    (calibrationLoop_runsOnly P q input afl).field (by intros; rfl)
  unfold calibrateCase
  dsimp only
  rw [closed]
  split
  · exact loop
  · obtain ⟨_, _, _, scored⟩ := updateBitmapScore_ratesOnly P.libm
      (recordStatistics (calibrationLoop P afl q input).afl q input
        (calibrationLoop P afl q input).stageMax) q true
    rw [completeCalibration, scored, ← loop]
    rfl

/-- A state together with the calibration cycles completed so far. A calibration may
complete or be aborted, and everything else keeps `total_cal_cycles`. -/
inductive ScoreStep (P : Platform) : AflState × ℕ → AflState × ℕ → Prop where
  | calibrate (afl : AflState) (cycles q : ℕ) (input : CalibrationInput) :
      ScoreStep P (afl, cycles)
        ((calibrateCase P afl q input).2, cycles + completedCycles P afl q input)
  | countPath (afl : AflState) (cycles cksum : ℕ) :
      ScoreStep P (afl, cycles) (AflFuzz.countPath afl cksum, cycles)
  | other (before after : AflState) (cycles : ℕ) :
      after.totalCalCycles = before.totalCalCycles →
        ScoreStep P (before, cycles) (after, cycles)

/-- All start-up paths begin with no calibration cycle: a normal start continues with the
dry run, a fast resume with the entries of the saved session, and without start-up
calibration nothing is calibrated. -/
def scoreSystem (P : Platform) : TransitionSystem (AflState × ℕ) where
  init state := state.1.totalCalCycles = 0 ∧ state.2 = 0
  step := ScoreStep P

theorem totalCalCycles_of_reachable {P : Platform} {state : AflState × ℕ}
    (run : Reachable (scoreSystem P) state) : state.1.totalCalCycles = u64 state.2 := by
  refine run.invariant (P := fun state => state.1.totalCalCycles = u64 state.2) ?_ ?_
  · rintro state ⟨none, start⟩
    rw [none, start]
    rfl
  · rintro before after - counted taken
    cases taken with
    | calibrate afl cycles q input =>
        dsimp only at counted ⊢
        rw [calibrateCase_totalCalCycles, completedCycles, counted]
        split
        · rw [Nat.add_zero]
        · exact Nat.mod_add_mod _ _ _
    | countPath afl cycles cksum =>
        rw [countPath_totalCalCycles]
        exact counted
    | other before after cycles same =>
        rw [same]
        exact counted

/-- **`calculate_score` of an enabled entry does not divide by zero**, in any state of any
run, exactly when the completed calibration cycles do not add up to a multiple of
`2 ^ 64`, such as 0, and the hit counter of the entry is not full in a schedule that
divides by it. -/
theorem calculateScore_safe_iff (P : Platform) (afl : AflState) (cycles q : ℕ)
    (run : Reachable (scoreSystem P) (afl, cycles)) (queued : q < afl.queuedItems)
    (enabled : (afl.queueBuf q).disabled = false) :
    calculateScore P.libm afl q ≠ .error .divisionByZero ↔
      ¬ 2 ^ 64 ∣ cycles ∧ ¬ DivisorWraps afl (afl.queueBuf q) := by
  have counted : afl.totalCalCycles = u64 cycles := totalCalCycles_of_reachable run
  have zero : u128 afl.totalCalCycles = 0 ↔ 2 ^ 64 ∣ cycles := by
    rw [counted, Nat.dvd_iff_mod_eq_zero, u128, u64]
    omega
  rw [ne_eq, calculateScore_traps_iff queued enabled, not_or, zero]

/-- One seed that was added and calibrated with eight map bytes. -/
def oneCalibrated : AflState :=
  (calibrateCase ⟨word64, fun _ _ => 1, Libm.identity⟩ (addToQueue { mapSize := 8 } 5 false) 0
    { runs := fun _ => { trace := fun i => if i = 0 then 1 else 0 } }).2

theorem calculateScore_safe_calibrated :
    calculateScore Libm.identity oneCalibrated 0 ≠ .error .divisionByZero := by
  refine (calculateScore_safe_iff ⟨word64, fun _ _ => 1, Libm.identity⟩ oneCalibrated 7 0
    ?_ (by decide +kernel) (by decide +kernel)).mpr ⟨by decide, by decide +kernel⟩
  have start : Reachable (scoreSystem ⟨word64, fun _ _ => 1, Libm.identity⟩)
      (addToQueue { mapSize := 8 } 5 false, 0) := .init ⟨rfl, rfl⟩
  exact start.step (.calibrate _ 0 0 _)

/-- Without start-up calibration no cycle is counted when the first score is computed. -/
theorem score_after_skipped_calibration :
    Reachable (scoreSystem ⟨word64, fun _ _ => 1, Libm.identity⟩)
        (addToQueue { mapSize := 8 } 5 false, 0) ∧
      calculateScore Libm.identity (addToQueue { mapSize := 8 } 5 false) 0 =
        .error .divisionByZero := by
  refine ⟨.init ⟨rfl, rfl⟩, ?_⟩
  exact (calculateScore_traps_iff (by decide) rfl).mpr (Or.inl rfl)

end GreenFuzz.AflFuzz
