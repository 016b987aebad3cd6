import GreenFuzz.AflFuzz.Calibrate
import GreenFuzz.AflFuzz.CalculateScore
import Mathlib.Tactic.Linarith
import Mathlib.Tactic.FieldSimp
import Mathlib.Tactic.Ring
import Mathlib.Algebra.Order.Field.Basic

/-!
# To whom energy is attributed, and its range

`calibrate_case(q)` runs the entry `q`, but the hook in `fuzz_run_target` stores what
it reads in `queue_cur`. So the readings reach `q`, and nobody else, exactly when `q`
is `queue_cur` (`calibration_attributes_iff`).

A completed calibration widens the range of energies by the cost of `q`, while a run of
the target stores a cost without looking at the range. The range stays right along a
run when every stored reading is in it, or belongs to the entry whose completed
calibration then widens it (`energyRange_of_reachable`).
-/

set_option autoImplicit false

namespace GreenFuzz.AflFuzz

open Library

/-! ## Costs during a calibration -/

section Costs

variable (P : Platform) (q : ℕ) (input : CalibrationInput) (c : Calibration)

theorem cost_ignoresStatistics (resource : Resource) :
    IgnoresStatistics fun e => e.cost resource := by
  intro e cksum failed execUs bitmapSize handicap newCov tcRef mini
  cases resource <;> rfl

/-- The costs after a round are those after its run of the target, if it makes one. -/
theorem calibrationRound_cost (k p : ℕ) (resource : Resource) :
    ((calibrationRound P q input c k).afl.queueBuf p).cost resource =
      if c.aborted = false ∧ k < c.stageMax then
        ((fuzzRunTarget c.afl (input.runs k)).queueBuf p).cost resource
      else (c.afl.queueBuf p).cost resource := by
  rcases calibrationRound_cases P q input c k with ⟨idle, same⟩ | ⟨going, below, ran⟩
  · rw [same, if_neg]
    rintro ⟨going, below⟩
    rcases idle with aborted | done
    · rw [going] at aborted
      cases aborted
    · omega
  · rw [if_pos ⟨going, below⟩]
    rcases ran with ⟨fault, stopped⟩ | accepted
    · rw [stopped]
    · rw [accepted]
      exact examineTrace_keeps P q { c with
        afl := fuzzRunTarget c.afl (input.runs k)
        fault := (input.runs k).fault } (cost_ignoresStatistics resource) p

/-- A round after an abort changes nothing. -/
theorem not_aborted_of_round (k : ℕ) (going : (calibrationRound P q input c k).aborted = false) :
    c.aborted = false := by
  rcases calibrationRound_cases P q input c k with ⟨idle, same⟩ | ⟨before, -⟩
  · exact same ▸ going
  · exact before

variable {P q input c}

theorem RunsOnly.queueCur {before after : AflState} (same : RunsOnly before after) :
    after.queueCur = before.queueCur := same.field (by intros; rfl)

theorem ExaminesOnly.energyMap {before after : AflState} (same : ExaminesOnly before after)
    (resource : Resource) : after.energyMap resource = before.energyMap resource := by
  obtain ⟨_, _, _, _, _, _, rfl⟩ := same
  cases resource <;> rfl

/-- A round leaves the shared words as they are, or clears them. -/
theorem calibrationRound_energyMap (k : ℕ) (resource : Resource) :
    (calibrationRound P q input c k).afl.energyMap resource = c.afl.energyMap resource ∨
      (calibrationRound P q input c k).afl.energyMap resource =
        (c.afl.energyMap resource).map fun _ => 0 := by
  rcases calibrationRound_cases P q input c k with ⟨-, same⟩ | ⟨-, -, ⟨fault, stopped⟩ | accepted⟩
  · exact Or.inl (by rw [same])
  · exact Or.inr (by rw [stopped, fuzzRunTarget_energyMap])
  · right
    rw [accepted, (examineTrace_examinesOnly P q _).energyMap, fuzzRunTarget_energyMap]

theorem calibrationRound_attached (k : ℕ) (resource : Resource) :
    ((calibrationRound P q input c k).afl.energyMap resource).isSome =
      (c.afl.energyMap resource).isSome := by
  rcases calibrationRound_energyMap k resource with same | cleared
  · rw [same]
  · rw [cleared, Option.isSome_map]

/-- A published value is what the hook reads, if the map is attached. -/
theorem reading_of_attached {afl : AflState} {resource : Resource}
    (attached : (afl.energyMap resource).isSome) (value : ℕ) :
    afl.reading resource (some value) = value := by
  obtain ⟨word, present⟩ := Option.isSome_iff_exists.mp attached
  rw [AflState.reading, present]
  rfl

end Costs

/-! ## Attribution -/

/-- A run publishes positive energy for a resource. -/
def RunOutcome.Measured (outcome : RunOutcome) (resource : Resource) : Prop :=
  ∃ value, 0 < value ∧ outcome.energy resource = some value

/-- The calibration completes, and each of its runs publishes positive energy for both
resources. A completed calibration makes `stage_max` runs. -/
def CompletesMeasured (P : Platform) (afl : AflState) (q : ℕ) (input : CalibrationInput) : Prop :=
  (calibrationLoop P afl q input).aborted = false ∧
    ∀ k < (calibrationLoop P afl q input).stageMax, ∀ resource,
      (input.runs k).Measured resource

/-- The costs of `q` are readings of runs of the calibration, and the costs of the other
entries are as before. -/
def Attributed (P : Platform) (afl : AflState) (q : ℕ) (input : CalibrationInput) : Prop :=
  (∀ resource, ∃ k < (calibrationLoop P afl q input).stageMax, (input.runs k).energy resource =
      some (((calibrateCase P afl q input).2.queueBuf q).cost resource)) ∧
    ∀ p ≠ q, ∀ resource, ((calibrateCase P afl q input).2.queueBuf p).cost resource =
      (afl.queueBuf p).cost resource

section Attribution

variable {P : Platform} {afl : AflState} {q : ℕ} {input : CalibrationInput}

/-- An entry that is not `queue_cur` keeps its costs. -/
theorem calibrationLoop_cost_of_ne {p : ℕ} (other : afl.queueCur ≠ some p) (resource : Resource) :
    ((calibrationLoop P afl q input).afl.queueBuf p).cost resource =
      (afl.queueBuf p).cost resource := by
  refine (foldl_invariant (P := fun c : Calibration => RunsOnly afl c.afl ∧
    (c.afl.queueBuf p).cost resource = (afl.queueBuf p).cost resource) ⟨?_, ?_⟩ ?_).2
  · exact (startCalibration_examinesOnly P q afl).runsOnly
  · exact startCalibration_keeps P q afl (cost_ignoresStatistics resource) p
  · intro k _ c ⟨same, cost⟩
    refine ⟨same.trans (calibrationRound_runsOnly P q input c k), ?_⟩
    have untouched : ((fuzzRunTarget c.afl (input.runs k)).queueBuf p).cost resource =
        (c.afl.queueBuf p).cost resource := by
      rw [fuzzRunTarget_cost, if_neg]
      rintro ⟨current, -⟩
      exact other (same.queueCur ▸ current)
    rw [calibrationRound_cost, untouched, ite_self, cost]

/-- What the loop has stored before round `count`, when `q` is `queue_cur`. -/
structure AttributedSoFar (afl : AflState) (q : ℕ) (input : CalibrationInput) (count : ℕ)
    (c : Calibration) : Prop where
  same : RunsOnly afl c.afl
  attached : ∀ resource, (c.afl.energyMap resource).isSome
  bounds : StageBounds c
  reading : c.aborted = false →
    (∀ k < count, k < c.stageMax → ∀ resource, (input.runs k).Measured resource) →
    0 < count → ∀ resource, ∃ k < c.stageMax,
      (input.runs k).energy resource = some ((c.afl.queueBuf q).cost resource)

theorem AttributedSoFar.start (attached : ∀ resource, (afl.energyMap resource).isSome) :
    AttributedSoFar afl q input 0 (startCalibration P afl q) where
  same := (startCalibration_examinesOnly P q afl).runsOnly
  attached resource := by
    rw [(startCalibration_examinesOnly P q afl).energyMap]
    exact attached resource
  bounds := startCalibration_bounds P q afl
  reading _ _ positive := absurd positive (Nat.lt_irrefl 0)

theorem AttributedSoFar.round (current : afl.queueCur = some q) {count : ℕ} {c : Calibration}
    (soFar : AttributedSoFar afl q input count c) :
    AttributedSoFar afl q input (count + 1) (calibrationRound P q input c count) := by
  obtain ⟨bounds, grows⟩ := calibrationRound_bounds P q input c soFar.bounds count
  refine ⟨soFar.same.trans (calibrationRound_runsOnly P q input c count), ?_, bounds, ?_⟩
  · intro resource
    rw [calibrationRound_attached]
    exact soFar.attached resource
  · intro going measured _ resource
    have before := not_aborted_of_round P q input c count going
    rw [calibrationRound_cost]
    by_cases runs : count < c.stageMax
    · obtain ⟨value, positive, published⟩ :=
        measured count (Nat.lt_succ_self count) (runs.trans_le grows) resource
      have stored : c.afl.reading resource ((input.runs count).energy resource) = value := by
        rw [published, reading_of_attached (soFar.attached resource)]
      refine ⟨count, runs.trans_le grows, ?_⟩
      rw [if_pos ⟨before, runs⟩, fuzzRunTarget_cost, stored,
        if_pos ⟨soFar.same.queueCur.trans current, positive⟩, published]
    · rw [if_neg fun both => runs both.2]
      obtain ⟨k, below, published⟩ := soFar.reading before
        (fun k early inside => measured k (Nat.lt_succ_of_lt early) (inside.trans_le grows))
        (soFar.bounds.1.trans_le (Nat.le_of_not_lt runs)) resource
      exact ⟨k, below.trans_le grows, published⟩

/-- If `q` is `queue_cur`, its readings reach it and nobody else. -/
theorem attributed_of_current (attached : ∀ resource, (afl.energyMap resource).isSome)
    (current : afl.queueCur = some q) (completes : CompletesMeasured P afl q input) :
    Attributed P afl q input := by
  have soFar : AttributedSoFar afl q input calCyclesLong (calibrationLoop P afl q input) :=
    foldl_range_invariant (AttributedSoFar.start attached) fun _ _ _ soFar => soFar.round current
  refine ⟨fun resource => ?_, fun p differ resource => ?_⟩
  · rw [calibrateCase_keeps P q input afl (cost_ignoresStatistics resource)]
    exact soFar.reading completes.1 (fun k _ inside => completes.2 k inside) (by decide) resource
  · rw [calibrateCase_keeps P q input afl (cost_ignoresStatistics resource)]
    refine calibrationLoop_cost_of_ne ?_ resource
    rw [current]
    exact fun same => differ (Option.some.inj same).symm

/-- Every run hits the first map index, ends as expected and publishes the same
positive energy. -/
def steadyInput (afl : AflState) (value : ℕ) : CalibrationInput where
  runs _ :=
    { fault := afl.crashMode
      trace := fun i => if i = 0 then 1 else 0
      cpuEnergy := some value
      memEnergy := some value }

/-- A steady calibration completes. -/
theorem steadyInput_completes (running : afl.stopSoon = false) (mapped : 0 < afl.realMapSize)
    {value : ℕ} (positive : 0 < value) :
    CompletesMeasured P afl q (steadyInput afl value) := by
  refine ⟨?_, fun k _ resource => ⟨value, positive, by cases resource <;> rfl⟩⟩
  refine calibrationLoop_completes P q _ afl running (fun _ => rfl) (fun _ => rfl) fun k => ?_
  exact countBytes_ne_zero mapped (show 0 < 4 by decide) (by simp [steadyInput])

/-- A positive value other than the given one. -/
def otherReading (cost : ℕ) : ℕ := if cost = 1 then 2 else 1

theorem otherReading_pos (cost : ℕ) : 0 < otherReading cost := by
  unfold otherReading
  split <;> decide

theorem otherReading_ne (cost : ℕ) : otherReading cost ≠ cost := by
  unfold otherReading
  split <;> omega

/-- If `q` is not `queue_cur`, a steady calibration with another reading than the old cost
of `q` leaves that old cost in place. -/
theorem not_attributed_of_other (other : afl.queueCur ≠ some q) :
    ¬ Attributed P afl q (steadyInput afl (otherReading ((afl.queueBuf q).cost .cpu))) := by
  rintro ⟨readings, -⟩
  obtain ⟨k, -, published⟩ := readings .cpu
  rw [calibrateCase_keeps P q _ afl (cost_ignoresStatistics .cpu),
    calibrationLoop_cost_of_ne other .cpu] at published
  exact otherReading_ne _ (Option.some.inj published)

end Attribution

/-- **Calibrating `q` attributes its energy to `q` and to nobody else**, whatever the target
does, exactly when `q` is `queue_cur`. -/
theorem calibration_attributes_iff (P : Platform) (afl : AflState) (q : ℕ)
    (attached : ∀ resource, (afl.energyMap resource).isSome) (running : afl.stopSoon = false)
    (mapped : 0 < afl.realMapSize) :
    (∀ input, CompletesMeasured P afl q input → Attributed P afl q input) ↔
      afl.queueCur = some q := by
  constructor
  · intro attributes
    by_contra other
    exact not_attributed_of_other other
      (attributes _ (steadyInput_completes running mapped (otherReading_pos _)))
  · intro current input completes
    exact attributed_of_current attached current completes

/-- A platform for examples. -/
def plainPlatform : Platform := ⟨word64, fun _ _ => 1, Libm.identity⟩

/-- Two entries, both energy maps attached. -/
def twoMeasured (current : Option ℕ) : AflState :=
  { mapSize := 64
    cpuEnergyMap := some 0
    memEnergyMap := some 0
    queueCur := current
    queuedItems := 2 }

/-- The entry being fuzzed is calibrated again. -/
theorem calibration_attributes_current :
    CompletesMeasured plainPlatform (twoMeasured (some 1)) 1
      (steadyInput (twoMeasured (some 1)) 5) ∧
      Attributed plainPlatform (twoMeasured (some 1)) 1 (steadyInput (twoMeasured (some 1)) 5) := by
  have completes : CompletesMeasured plainPlatform (twoMeasured (some 1)) 1
      (steadyInput (twoMeasured (some 1)) 5) :=
    steadyInput_completes rfl (by decide) (by decide)
  refine ⟨completes, ?_⟩
  refine (calibration_attributes_iff plainPlatform (twoMeasured (some 1)) 1 ?_ rfl (by decide)).mpr
    rfl _ completes
  intro resource
  cases resource <;> rfl

/-- In the dry run no entry is being fuzzed, and a new find is calibrated while another
one is. Its readings do not reach it. -/
theorem calibration_of_new_find_misattributed :
    (CompletesMeasured plainPlatform (twoMeasured none) 1 (steadyInput (twoMeasured none) 1) ∧
        ¬ Attributed plainPlatform (twoMeasured none) 1 (steadyInput (twoMeasured none) 1)) ∧
      CompletesMeasured plainPlatform (twoMeasured (some 0)) 1
          (steadyInput (twoMeasured (some 0)) 1) ∧
        ¬ Attributed plainPlatform (twoMeasured (some 0)) 1
          (steadyInput (twoMeasured (some 0)) 1) := by
  refine ⟨⟨steadyInput_completes rfl (by decide) (by decide), ?_⟩,
    steadyInput_completes rfl (by decide) (by decide), ?_⟩
  · exact not_attributed_of_other (by decide)
  · exact not_attributed_of_other (by decide)

/-! ## The range of energies -/

/-- `min_cpu_energy` or `min_mem_energy`. -/
def AflState.minEnergy (afl : AflState) : Resource → ℕ
  | .cpu => afl.minCpuEnergy
  | .mem => afl.minMemEnergy

/-- `max_cpu_energy` or `max_mem_energy`. -/
def AflState.maxEnergy (afl : AflState) : Resource → ℕ
  | .cpu => afl.maxCpuEnergy
  | .mem => afl.maxMemEnergy

/-- Nothing was measured yet, or the minimum is positive and at most the maximum. -/
def RangeOrdered (low high : ℕ) : Prop := low = 0 ∧ high = 0 ∨ 0 < low ∧ low ≤ high

/-- A cost is missing or in the range. -/
def RangeHolds (low high cost : ℕ) : Prop := cost = 0 ∨ low ≤ cost ∧ cost ≤ high

/-- The ranges of both resources are ordered and hold the costs of all entries. -/
structure EnergyRange (afl : AflState) : Prop where
  ordered : ∀ resource, RangeOrdered (afl.minEnergy resource) (afl.maxEnergy resource)
  inside : ∀ q resource, RangeHolds (afl.minEnergy resource) (afl.maxEnergy resource)
    ((afl.queueBuf q).cost resource)

/-- Widening the range by a cost keeps its order, keeps what it holds, and makes it hold
the cost. -/
theorem range_widen {low high : ℕ} (cost : ℕ) (ordered : RangeOrdered low high) :
    RangeOrdered (lowerEnergy low cost) (raiseEnergy high cost) ∧
      RangeHolds (lowerEnergy low cost) (raiseEnergy high cost) cost ∧
      ∀ old, RangeHolds low high old →
        RangeHolds (lowerEnergy low cost) (raiseEnergy high cost) old := by
  unfold RangeOrdered RangeHolds lowerEnergy raiseEnergy at *
  grind

section Range

variable {P : Platform} {afl before after : AflState} {q : ℕ} {input : CalibrationInput}

theorem RunsOnly.minEnergy (same : RunsOnly before after) (resource : Resource) :
    after.minEnergy resource = before.minEnergy resource := by
  obtain ⟨_, _, _, _, _, _, _, _, _, _, rfl⟩ := same
  cases resource <;> rfl

theorem RunsOnly.maxEnergy (same : RunsOnly before after) (resource : Resource) :
    after.maxEnergy resource = before.maxEnergy resource := by
  obtain ⟨_, _, _, _, _, _, _, _, _, _, rfl⟩ := same
  cases resource <;> rfl

/-- `closeCalibration` changes no range and no shared word. -/
theorem closeCalibration_energy (c : Calibration) (resource : Resource) :
    (closeCalibration q c).minEnergy resource = c.afl.minEnergy resource ∧
      (closeCalibration q c).maxEnergy resource = c.afl.maxEnergy resource ∧
      (closeCalibration q c).energyMap resource = c.afl.energyMap resource := by
  unfold closeCalibration
  dsimp only
  cases resource <;> split <;> split <;> exact ⟨rfl, rfl, rfl⟩

/-- A completed calibration widens the ranges by the costs of `q`. -/
theorem completeCalibration_energy (firstRun : Bool) (c : Calibration) (resource : Resource) :
    (completeCalibration P q input firstRun c).afl.minEnergy resource =
        lowerEnergy (c.afl.minEnergy resource) ((c.afl.queueBuf q).cost resource) ∧
      (completeCalibration P q input firstRun c).afl.maxEnergy resource =
        raiseEnergy (c.afl.maxEnergy resource) ((c.afl.queueBuf q).cost resource) ∧
      (completeCalibration P q input firstRun c).afl.energyMap resource =
        c.afl.energyMap resource := by
  obtain ⟨_, _, _, scored⟩ := updateBitmapScore_ratesOnly P.libm
    (recordStatistics c.afl q input c.stageMax) q true
  unfold completeCalibration
  dsimp only
  rw [scored]
  cases resource <;> exact ⟨rfl, rfl, rfl⟩

/-- The range after a calibration. -/
theorem calibrateCase_range (P : Platform) (afl : AflState) (q : ℕ) (input : CalibrationInput)
    (resource : Resource) :
    let c := calibrationLoop P afl q input
    let cost := (c.afl.queueBuf q).cost resource
    (calibrateCase P afl q input).2.minEnergy resource =
        (if c.aborted then afl.minEnergy resource
          else lowerEnergy (afl.minEnergy resource) cost) ∧
      (calibrateCase P afl q input).2.maxEnergy resource =
        (if c.aborted then afl.maxEnergy resource
          else raiseEnergy (afl.maxEnergy resource) cost) ∧
      (calibrateCase P afl q input).2.energyMap resource = c.afl.energyMap resource := by
  have same := calibrationLoop_runsOnly P q input afl
  have low := same.minEnergy resource
  have high := same.maxEnergy resource
  unfold calibrateCase
  dsimp only
  obtain ⟨closedLow, closedHigh, closedWord⟩ := closeCalibration_energy (q := q)
    (if (calibrationLoop P afl q input).aborted then calibrationLoop P afl q input
      else completeCalibration P q input ((afl.queueBuf q).execCksum == 0)
        (calibrationLoop P afl q input)) resource
  rw [closedLow, closedHigh, closedWord]
  split
  · exact ⟨low, high, rfl⟩
  · obtain ⟨lowered, raised, word⟩ := completeCalibration_energy (P := P) (q := q)
      ((afl.queueBuf q).execCksum == 0) (calibrationLoop P afl q input) resource
    rw [lowered, raised, word, low, high]
    exact ⟨rfl, rfl, rfl⟩

/-- No shared word holds a value that was not read yet. -/
def WordsCleared (afl : AflState) : Prop :=
  ∀ resource, (afl.energyMap resource).map (fun _ => 0) = afl.energyMap resource

theorem WordsCleared.round (cleared : WordsCleared afl) {c : Calibration} (k : ℕ)
    (same : ∀ resource, c.afl.energyMap resource = afl.energyMap resource) (resource : Resource) :
    (calibrationRound P q input c k).afl.energyMap resource = afl.energyMap resource := by
  rcases calibrationRound_energyMap (P := P) (q := q) (c := c) k resource with kept | emptied
  · rw [kept, same]
  · rw [emptied, same, cleared resource]

/-- Runs whose readings are in the range leave the costs of all entries in it. -/
theorem calibrationLoop_inside (range : EnergyRange afl) (cleared : WordsCleared afl)
    (readings : ∀ resource, ∀ k < calCyclesLong, RangeHolds (afl.minEnergy resource)
      (afl.maxEnergy resource) (afl.reading resource ((input.runs k).energy resource)))
    (p : ℕ) (resource : Resource) :
    RangeHolds (afl.minEnergy resource) (afl.maxEnergy resource)
      (((calibrationLoop P afl q input).afl.queueBuf p).cost resource) := by
  refine (foldl_invariant (P := fun c : Calibration =>
    (∀ resource, c.afl.energyMap resource = afl.energyMap resource) ∧
      RangeHolds (afl.minEnergy resource) (afl.maxEnergy resource)
        ((c.afl.queueBuf p).cost resource)) ⟨?_, ?_⟩ ?_).2
  · exact (startCalibration_examinesOnly P q afl).energyMap
  · rw [startCalibration_keeps P q afl (cost_ignoresStatistics resource) p]
    exact range.inside p resource
  · intro k member c ⟨same, inside⟩
    refine ⟨cleared.round k same, ?_⟩
    have stored : c.afl.reading resource ((input.runs k).energy resource) =
        afl.reading resource ((input.runs k).energy resource) := by
      rw [AflState.reading, same, AflState.reading]
    rw [calibrationRound_cost, fuzzRunTarget_cost, stored]
    split
    · split
      · exact readings resource k (List.mem_range.mp member)
      · exact inside
    · exact inside

theorem calibrationLoop_energyMap (cleared : WordsCleared afl) (resource : Resource) :
    (calibrationLoop P afl q input).afl.energyMap resource = afl.energyMap resource :=
  foldl_invariant
    (P := fun c : Calibration => ∀ resource, c.afl.energyMap resource = afl.energyMap resource)
    (startCalibration_examinesOnly P q afl).energyMap
    (fun k _ _ same => cleared.round k same) resource

/-! ### Runs -/

/-- The operations that store costs or change the ranges. -/
inductive EnergyOp where
  | run (outcome : RunOutcome)
  | calibrate (q : ℕ) (input : CalibrationInput)

/-- `fuzz_run_target` or `calibrate_case`. -/
def EnergyOp.apply (P : Platform) (afl : AflState) : EnergyOp → AflState
  | .run outcome => fuzzRunTarget afl outcome
  | .calibrate q input => (calibrateCase P afl q input).2

/-- Everything else keeps the ranges and the shared words, and at most adds entries that
have no cost. It may select another entry as `queue_cur`. -/
structure SameEnergy (before after : AflState) : Prop where
  minEnergy : ∀ resource, after.minEnergy resource = before.minEnergy resource
  maxEnergy : ∀ resource, after.maxEnergy resource = before.maxEnergy resource
  energyMap : ∀ resource, after.energyMap resource = before.energyMap resource
  cost : ∀ q resource, (after.queueBuf q).cost resource = (before.queueBuf q).cost resource ∨
    (after.queueBuf q).cost resource = 0

/-- Runs of operations that meet `allowed`. -/
inductive EnergyStep (P : Platform) (allowed : AflState → EnergyOp → Prop) :
    AflState → AflState → Prop where
  | op (afl : AflState) (op : EnergyOp) : allowed afl op →
      EnergyStep P allowed afl (op.apply P afl)
  | other (before after : AflState) : SameEnergy before after → EnergyStep P allowed before after

/-- Nothing was measured yet. -/
structure Unmeasured (afl : AflState) : Prop where
  minEnergy : ∀ resource, afl.minEnergy resource = 0
  maxEnergy : ∀ resource, afl.maxEnergy resource = 0
  cleared : WordsCleared afl
  cost : ∀ q resource, (afl.queueBuf q).cost resource = 0

/-- The system of these runs. -/
def energySystem (P : Platform) (allowed : AflState → EnergyOp → Prop) :
    TransitionSystem AflState where
  init := Unmeasured
  step := EnergyStep P allowed

/-- A reading of this run would be in the range, or is missing. -/
def ReadingsInside (afl : AflState) (outcome : RunOutcome) : Prop :=
  ∀ resource, RangeHolds (afl.minEnergy resource) (afl.maxEnergy resource)
    (afl.reading resource (outcome.energy resource))

/-- An operation stores no cost outside the range, or it is a completed calibration of
the entry that stores them. -/
def StoresInside (P : Platform) (afl : AflState) : EnergyOp → Prop
  | .run outcome => afl.queueCur = none ∨ ReadingsInside afl outcome
  | .calibrate q input => afl.queueCur = none ∨
      (∀ k < calCyclesLong, ReadingsInside afl (input.runs k)) ∨
      afl.queueCur = some q ∧ (calibrationLoop P afl q input).aborted = false

theorem Unmeasured.range (unmeasured : Unmeasured afl) : EnergyRange afl where
  ordered resource := Or.inl ⟨unmeasured.minEnergy resource, unmeasured.maxEnergy resource⟩
  inside q resource := Or.inl (unmeasured.cost q resource)

theorem EnergyRange.run (range : EnergyRange afl) {outcome : RunOutcome}
    (stores : afl.queueCur = none ∨ ReadingsInside afl outcome) :
    EnergyRange (fuzzRunTarget afl outcome) := by
  have same := fuzzRunTarget_runsOnly afl outcome
  refine ⟨fun resource => ?_, fun q resource => ?_⟩
  · rw [same.minEnergy, same.maxEnergy]
    exact range.ordered resource
  · rw [same.minEnergy, same.maxEnergy, fuzzRunTarget_cost]
    split
    · rename_i stored
      rcases stores with missing | inside
      · rw [missing] at stored
        cases stored.1
      · exact inside resource
    · exact range.inside q resource

/-- After the loop of a calibration, either all costs are still in the range, or `q` is
`queue_cur`, the calibration completes and all other costs are in the range. -/
theorem EnergyRange.loop (range : EnergyRange afl) (cleared : WordsCleared afl)
    (stores : StoresInside P afl (.calibrate q input)) (resource : Resource) :
    (∀ p, RangeHolds (afl.minEnergy resource) (afl.maxEnergy resource)
        (((calibrationLoop P afl q input).afl.queueBuf p).cost resource)) ∨
      (calibrationLoop P afl q input).aborted = false ∧
        ∀ p ≠ q, RangeHolds (afl.minEnergy resource) (afl.maxEnergy resource)
          (((calibrationLoop P afl q input).afl.queueBuf p).cost resource) := by
  rcases stores with missing | readings | ⟨current, completes⟩
  · refine Or.inl fun p => ?_
    rw [calibrationLoop_cost_of_ne (by simp [missing])]
    exact range.inside p resource
  · exact Or.inl fun p => calibrationLoop_inside range cleared
      (fun resource k below => readings k below resource) p resource
  · refine Or.inr ⟨completes, fun p differ => ?_⟩
    rw [calibrationLoop_cost_of_ne (by simpa [current] using fun same => differ same.symm)]
    exact range.inside p resource

theorem EnergyRange.calibrate (range : EnergyRange afl) (cleared : WordsCleared afl)
    (stores : StoresInside P afl (.calibrate q input)) :
    EnergyRange (calibrateCase P afl q input).2 := by
  have step (resource : Resource) :
      RangeOrdered ((calibrateCase P afl q input).2.minEnergy resource)
          ((calibrateCase P afl q input).2.maxEnergy resource) ∧
        ∀ p, RangeHolds ((calibrateCase P afl q input).2.minEnergy resource)
          ((calibrateCase P afl q input).2.maxEnergy resource)
          (((calibrateCase P afl q input).2.queueBuf p).cost resource) := by
    obtain ⟨low, high, -⟩ := calibrateCase_range P afl q input resource
    have costs (p : ℕ) := calibrateCase_keeps P q input afl (cost_ignoresStatistics resource) p
    obtain ⟨ordered, holds, keeps⟩ := range_widen
      (((calibrationLoop P afl q input).afl.queueBuf q).cost resource) (range.ordered resource)
    simp only [low, high, costs]
    have loop := range.loop cleared stores resource
    cases aborted : (calibrationLoop P afl q input).aborted with
    | true =>
        rcases loop with all | ⟨completes, -⟩
        · exact ⟨range.ordered resource, all⟩
        · rw [aborted] at completes
          cases completes
    | false =>
        refine ⟨ordered, fun p => ?_⟩
        rcases loop with all | ⟨-, others⟩
        · exact keeps _ (all p)
        · by_cases same : p = q
          · subst same
            exact holds
          · exact keeps _ (others p same)
  exact ⟨fun resource => (step resource).1, fun p resource => (step resource).2 p⟩

theorem EnergyRange.other (range : EnergyRange before) (same : SameEnergy before after) :
    EnergyRange after := by
  refine ⟨fun resource => ?_, fun q resource => ?_⟩
  · rw [same.minEnergy, same.maxEnergy]
    exact range.ordered resource
  · rw [same.minEnergy, same.maxEnergy]
    rcases same.cost q resource with kept | missing
    · rw [kept]
      exact range.inside q resource
    · exact Or.inl missing

/-- The shared words are clear between operations. -/
theorem WordsCleared.apply (cleared : WordsCleared afl) (op : EnergyOp) :
    WordsCleared (op.apply P afl) := by
  intro resource
  cases op with
  | run outcome =>
      rw [EnergyOp.apply, fuzzRunTarget_energyMap, Option.map_map]
      rfl
  | calibrate q input =>
      rw [EnergyOp.apply, (calibrateCase_range P afl q input resource).2.2,
        calibrationLoop_energyMap cleared]
      exact cleared resource

end Range

/-! ### What the range is for -/

/-- With all costs in the ranges, neither the linear map of `calculate_score` nor the
normalisation of `energy_bonus` needs its clamps. The bounds on the maxima say that they
and their sum are `u64` values. -/
structure ClampFree (libm : Libm) (afl : AflState) : Prop where
  multiplier : ∀ q resource, afl.maxEnergy resource < 2 ^ 64 →
    afl.minEnergy resource ≠ afl.maxEnergy resource → (afl.queueBuf q).cost resource ≠ 0 →
      0.2 ≤ linearMultiplier (afl.minEnergy resource) (afl.maxEnergy resource)
          ((afl.queueBuf q).cost resource) ∧
        linearMultiplier (afl.minEnergy resource) (afl.maxEnergy resource)
          ((afl.queueBuf q).cost resource) ≤ 5
  norm : ∀ q, afl.maxCpuEnergy + afl.maxMemEnergy < 2 ^ 64 → energyMin afl < energyMax afl →
    0 ≤ energyNorm libm afl
          (u64 ((afl.queueBuf q).cpuEnergyCost + (afl.queueBuf q).memEnergyCost)) ∧
      energyNorm libm afl
          (u64 ((afl.queueBuf q).cpuEnergyCost + (afl.queueBuf q).memEnergyCost)) ≤ 1

/-- The line stays between its ends. -/
theorem linearMultiplier_between {low high cost : ℕ} (small : high < 2 ^ 64) (above : low ≤ cost)
    (below : cost ≤ high) (wide : low ≠ high) :
    0.2 ≤ linearMultiplier low high cost ∧ linearMultiplier low high cost ≤ 5 := by
  have less : low < high := lt_of_le_of_ne (above.trans below) wide
  have width : (0 : ℚ) < (high : ℚ) - low := sub_pos.mpr (Nat.cast_lt.mpr less)
  have from_low : (low : ℚ) ≤ cost := Nat.cast_le.mpr above
  have to_high : (cost : ℚ) ≤ high := Nat.cast_le.mpr below
  have line : linearMultiplier low high cost =
      5 - 4.8 * (((cost : ℚ) - low) / ((high : ℚ) - low)) := by
    unfold linearMultiplier
    rw [u64Sub_of_le less.le small, Nat.cast_sub less.le]
    field_simp
    ring
  have nonneg : 0 ≤ ((cost : ℚ) - low) / ((high : ℚ) - low) :=
    div_nonneg (sub_nonneg.mpr from_low) width.le
  have le_one : ((cost : ℚ) - low) / ((high : ℚ) - low) ≤ 1 :=
    (div_le_one width).mpr (sub_le_sub_right to_high _)
  rw [line]
  constructor <;> linarith

/-- The normalised energy of a value below the maximum is between 0 and 1. -/
theorem energyNorm_between (libm : Libm) {afl : AflState} {e : ℕ} (below : e ≤ energyMax afl)
    (wide : energyMin afl < energyMax afl) :
    0 ≤ energyNorm libm afl e ∧ energyNorm libm afl e ≤ 1 := by
  have monotone := libm.log1p_strictMono
  have den : 0 < libm.log1p (energyMax afl - energyMin afl) := by
    rw [← libm.log1p_zero]
    exact monotone (Nat.sub_pos_of_lt wide)
  have num_nonneg (n : ℕ) : 0 ≤ libm.log1p n := by
    rw [← libm.log1p_zero]
    exact monotone.monotone (Nat.zero_le n)
  refine ⟨div_nonneg (num_nonneg _) den.le, (div_le_one den).mpr (monotone.monotone ?_)⟩
  split <;> omega

theorem EnergyRange.clampFree (libm : Libm) {afl : AflState} (range : EnergyRange afl) :
    ClampFree libm afl where
  multiplier q resource small wide measured := by
    rcases range.inside q resource with missing | ⟨above, below⟩
    · exact absurd missing measured
    · exact linearMultiplier_between small above below wide
  norm q small wide := by
    have most (resource : Resource) :
        (afl.queueBuf q).cost resource ≤ afl.maxEnergy resource := by
      rcases range.inside q resource with missing | ⟨-, below⟩
      · omega
      · exact below
    have cpu : (afl.queueBuf q).cpuEnergyCost ≤ afl.maxCpuEnergy := most .cpu
    have mem : (afl.queueBuf q).memEnergyCost ≤ afl.maxMemEnergy := most .mem
    refine energyNorm_between libm ?_ wide
    unfold energyMax u64
    omega

/-- **The ranges are ordered and hold all costs** in every state of every run whose
operations store no cost outside the range, other than a completed calibration of the
entry that stores it. So the clamps of the users of the ranges are never needed. -/
theorem energyRange_of_reachable (P : Platform) (afl : AflState)
    (run : Reachable (energySystem P (StoresInside P)) afl) :
    EnergyRange afl ∧ ClampFree P.libm afl := by
  have range : EnergyRange afl := by
    refine (run.invariant (P := fun afl => EnergyRange afl ∧ WordsCleared afl)
      (fun _ (unmeasured : Unmeasured _) => ⟨unmeasured.range, unmeasured.cleared⟩) ?_).1
    rintro before after - ⟨range, cleared⟩ taken
    cases taken with
    | op op stores =>
        refine ⟨?_, cleared.apply op⟩
        cases op with
        | run outcome => exact range.run stores
        | calibrate q input => exact range.calibrate cleared stores
    | other _ same =>
        refine ⟨range.other same, fun resource => ?_⟩
        rw [same.energyMap]
        exact cleared resource
  exact ⟨range, range.clampFree P.libm⟩

theorem twoMeasured_unmeasured (current : Option ℕ) : Unmeasured (twoMeasured current) := by
  refine ⟨fun resource => ?_, fun resource => ?_, fun resource => ?_, fun q resource => ?_⟩ <;>
    cases resource <;> rfl

/-- The entry being fuzzed is calibrated: the range becomes its cost. -/
theorem energyRange_current_calibrated :
    let afl := (calibrateCase plainPlatform (twoMeasured (some 1)) 1
      (steadyInput (twoMeasured (some 1)) 5)).2
    EnergyRange afl ∧ ClampFree plainPlatform.libm afl := by
  have completes : CompletesMeasured plainPlatform (twoMeasured (some 1)) 1
      (steadyInput (twoMeasured (some 1)) 5) :=
    steadyInput_completes rfl (by decide) (by decide)
  have start : Reachable (energySystem plainPlatform (StoresInside plainPlatform))
      (twoMeasured (some 1)) := .init (twoMeasured_unmeasured _)
  exact energyRange_of_reachable plainPlatform _
    (start.step (.op _ (.calibrate 1 _) (Or.inr (Or.inr ⟨rfl, completes.1⟩))))

/-- Selecting another entry stores no cost. -/
theorem sameEnergy_select (afl : AflState) (current : Option ℕ) :
    SameEnergy afl { afl with queueCur := current } :=
  ⟨fun resource => by cases resource <;> rfl, fun resource => by cases resource <;> rfl,
    fun resource => by cases resource <;> rfl, fun _ _ => Or.inl rfl⟩

/-- The state after the dry run has calibrated the second entry, while `queue_cur` is null,
and the first entry was selected. -/
def afterDryRun : AflState :=
  { (calibrateCase plainPlatform (twoMeasured none) 1 (steadyInput (twoMeasured none) 5)).2 with
    queueCur := some 0 }

/-- After the dry run the range is still empty, and the first run of the target stores a
cost outside it. -/
theorem energyRange_broken_by_first_run :
    Reachable (energySystem plainPlatform fun _ _ => True)
        (fuzzRunTarget afterDryRun { cpuEnergy := some 7 }) ∧
      ¬ EnergyRange (fuzzRunTarget afterDryRun { cpuEnergy := some 7 }) := by
  have start : Reachable (energySystem plainPlatform fun _ _ => True) (twoMeasured none) :=
    .init (twoMeasured_unmeasured none)
  have selected : SameEnergy (calibrateCase plainPlatform (twoMeasured none) 1
      (steadyInput (twoMeasured none) 5)).2 afterDryRun := sameEnergy_select _ _
  obtain ⟨-, high, word⟩ := calibrateCase_range plainPlatform (twoMeasured none) 1
    (steadyInput (twoMeasured none) 5) .cpu
  rw [calibrationLoop_cost_of_ne (by decide)] at high
  have empty : afterDryRun.maxEnergy .cpu = 0 := (selected.maxEnergy .cpu).trans (by
    rw [high]
    exact ite_self _)
  have attached : (afterDryRun.energyMap .cpu).isSome := by
    rw [selected.energyMap, word,
      calibrationLoop_energyMap (twoMeasured_unmeasured none).cleared]
    rfl
  refine ⟨((start.step (.op _ (.calibrate 1 _) trivial)).step (.other _ _ selected)).step
    (.op _ (.run _) trivial), fun range => ?_⟩
  have inside := range.inside 0 .cpu
  rw [(fuzzRunTarget_runsOnly afterDryRun _).maxEnergy, empty, fuzzRunTarget_cost,
    show RunOutcome.energy { cpuEnergy := some 7 } .cpu = some 7 from rfl,
    reading_of_attached attached, if_pos ⟨rfl, by decide⟩] at inside
  rcases inside with missing | ⟨-, below⟩
  · exact absurd missing (by decide)
  · exact absurd below (by decide)

end GreenFuzz.AflFuzz
