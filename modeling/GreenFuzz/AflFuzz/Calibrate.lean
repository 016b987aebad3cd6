import GreenFuzz.AflFuzz.Score
import GreenFuzz.Library.Runs

/-!
# Calibration

`calibrate_case` of `afl-fuzz-run.c`: run an entry a few times, look for new and
for unstable coverage, and collect its statistics. The runs of the target, the time
they took and the handicap are inputs of the model.

`stage_max` starts at 3 or 7 and is raised to 7 or 12 when instability shows, so the
loop makes at most 12 rounds. The model folds over those 12 numbers, and a round
whose number is not below `stage_max`, or that follows an abort, does nothing.

The second part says which parts of the state each piece can change.
-/

set_option autoImplicit false

namespace GreenFuzz.AflFuzz

open Library

/-- What differs between builds: the word size of the coverage code, the hash
function and the mathematics library. -/
structure Platform where
  wordSize : WordSize
  hash64 : ℕ → Buffer → ℕ
  libm : Libm

/-- What a call of `calibrate_case` is given: what each run of the target does, the
microseconds from the first run to the last, and the handicap. -/
structure CalibrationInput where
  runs : ℕ → RunOutcome
  elapsedUs : ℕ := 0
  handicap : ℕ := 0

/-- The locals of `calibrate_case`, with the state. -/
structure Calibration where
  afl : AflState
  newBits : ℕ := 0
  varDetected : Bool := false
  fault : FsrvRunResult := .ok
  stageMax : ℕ
  aborted : Bool := false

/-- `CAL_CYCLES_LONG`, the largest value of `stage_max`. -/
def calCyclesLong : ℕ := 12

/-- `memcpy(afl->first_trace, afl->fsrv.trace_bits, afl->fsrv.map_size)`. -/
def saveFirstTrace (afl : AflState) : AflState :=
  { afl with
    firstTrace := fun i => if i < afl.mapSize then afl.traceBits i else afl.firstTrace i }

/-- `has_new_bits` on `virgin_bits`, keeping the larger of the results. -/
def calibrationNewBits (P : Platform) (c : Calibration) : Calibration :=
  let found := hasNewBits P.wordSize c.afl .bits
  { c with afl := found.2, newBits := if c.newBits < found.1 then found.1 else c.newBits }

/-- The entry counts as failed until its calibration is complete. -/
def announceCalibration (afl : AflState) (q : ℕ) : AflState :=
  afl.modifyEntry q fun e => { e with
    execCksum := if afl.cmplogMode then 0 else e.execCksum
    calFailed := (e.calFailed + 1) % 2 ^ 8 }

/-- Everything before the loop. -/
def startCalibration (P : Platform) (afl : AflState) (q : ℕ) : Calibration :=
  let afl := announceCalibration afl q
  let stageMax := if afl.aflCalFast then 3 else 7
  if (afl.queueBuf q).execCksum ≠ 0 then
    calibrationNewBits P { afl := saveFirstTrace afl, stageMax := stageMax }
  else { afl := afl, stageMax := stageMax }

/-- The bytes in which this run differs from the first are marked as variable, and
no longer count as undiscovered. -/
def markVariable (afl : AflState) : AflState :=
  let unstable (i : ℕ) : Prop :=
    i < afl.mapSize ∧ afl.varBytes i = 0 ∧ afl.firstTrace i ≠ afl.traceBits i
  { afl with
    varBytes := fun i => if unstable i then 1 else afl.varBytes i
    virginBits := fun i => if unstable i then 0 else afl.virginBits i }

/-- The part of a round that follows an accepted run. -/
def examineTrace (P : Platform) (q : ℕ) (c : Calibration) : Calibration :=
  let c := { c with afl := { c.afl with
    traceBits := classifyCounts P.wordSize c.afl.mapSize c.afl.traceBits } }
  let cksum := P.hash64 c.afl.mapSize c.afl.traceBits
  if (c.afl.queueBuf q).execCksum ≠ cksum then
    let c := calibrationNewBits P c
    if (c.afl.queueBuf q).execCksum ≠ 0 then
      { c with
        afl := markVariable c.afl
        varDetected := true
        stageMax := if c.afl.aflCalFast then 7 else calCyclesLong }
    else
      { c with
        afl := saveFirstTrace (c.afl.modifyEntry q fun e => { e with execCksum := cksum }) }
  else c

/-- One round of the loop. -/
def calibrationRound (P : Platform) (q : ℕ) (input : CalibrationInput) (c : Calibration)
    (stageCur : ℕ) : Calibration :=
  if c.aborted ∨ c.stageMax ≤ stageCur then c
  else
    let outcome := input.runs stageCur
    let c := { c with afl := fuzzRunTarget c.afl outcome, fault := outcome.fault }
    if c.afl.stopSoon ∨ c.fault ≠ c.afl.crashMode then { c with aborted := true }
    else if !c.afl.nonInstrumentedMode ∧ countBytes c.afl.realMapSize c.afl.traceBits = 0 then
      { c with fault := .noinst, aborted := true }
    else examineTrace P q c

/-- The loop of `calibrate_case`. -/
def calibrationLoop (P : Platform) (afl : AflState) (q : ℕ) (input : CalibrationInput) :
    Calibration :=
  (List.range calCyclesLong).foldl (calibrationRound P q input) (startCalibration P afl q)

/-- `min` after a cost was seen: `if (!min || cost < min) min = cost`. -/
def lowerEnergy (low cost : ℕ) : ℕ :=
  if cost = 0 then low else if low = 0 ∨ cost < low then cost else low

/-- `max` after a cost was seen: `if (!max || cost > max) max = cost`. -/
def raiseEnergy (high cost : ℕ) : ℕ :=
  if cost = 0 then high else if high = 0 ∨ high < cost then cost else high

/-- The statistics of a calibration that was not aborted. -/
def recordStatistics (afl : AflState) (q : ℕ) (input : CalibrationInput) (stageMax : ℕ) :
    AflState :=
  let entry := afl.queueBuf q
  let diffUs :=
    if afl.fixedSeed then u64 (u32Pred afl.execTmout * stageMax)
    else if input.elapsedUs = 0 then 1 else input.elapsedUs
  let execUs := diffUs / stageMax
  let bitmapSize := countBytes afl.realMapSize afl.traceBits
  { afl.modifyEntry q fun e => { e with
      execUs := if execUs = 0 then 1 else execUs
      bitmapSize := bitmapSize
      handicap := input.handicap
      calFailed := 0 } with
    totalCalUs := u64 (afl.totalCalUs + diffUs)
    totalCalCycles := u64 (afl.totalCalCycles + stageMax)
    totalCpuEnergy := u128 (afl.totalCpuEnergy + entry.cpuEnergyCost)
    totalMemEnergy := u128 (afl.totalMemEnergy + entry.memEnergyCost)
    minCpuEnergy := lowerEnergy afl.minCpuEnergy entry.cpuEnergyCost
    maxCpuEnergy := raiseEnergy afl.maxCpuEnergy entry.cpuEnergyCost
    minMemEnergy := lowerEnergy afl.minMemEnergy entry.memEnergyCost
    maxMemEnergy := raiseEnergy afl.maxMemEnergy entry.memEnergyCost
    totalBitmapSize := u64 (afl.totalBitmapSize + bitmapSize)
    totalBitmapEntries := u64 (afl.totalBitmapEntries + 1) }

/-- The part of `calibrate_case` from the end of the loop to `abort_calibration`. -/
def completeCalibration (P : Platform) (q : ℕ) (input : CalibrationInput) (firstRun : Bool)
    (c : Calibration) : Calibration :=
  let afl := updateBitmapScore P.libm (recordStatistics c.afl q input c.stageMax) q true
  { c with
    afl := afl
    fault :=
      if !afl.nonInstrumentedMode ∧ firstRun ∧ c.fault = .ok ∧ c.newBits = 0 then .nobits
      else c.fault }

/-- The part of `calibrate_case` after `abort_calibration`. -/
def closeCalibration (q : ℕ) (c : Calibration) : AflState :=
  let afl := c.afl
  let afl :=
    if c.newBits = 2 ∧ !(afl.queueBuf q).hasNewCov then
      { afl.modifyEntry q fun e => { e with hasNewCov := true } with
        queuedWithCov := u32 (afl.queuedWithCov + 1) }
    else afl
  if c.varDetected then
    { afl with
      varByteCount := countBytes afl.realMapSize afl.varBytes
      queuedVariable :=
        if !(afl.queueBuf q).varBehavior then u32 (afl.queuedVariable + 1)
        else afl.queuedVariable }
  else afl

/-- `calibrate_case`. -/
def calibrateCase (P : Platform) (afl : AflState) (q : ℕ) (input : CalibrationInput) :
    FsrvRunResult × AflState :=
  let firstRun : Bool := (afl.queueBuf q).execCksum == 0
  let c := calibrationLoop P afl q input
  let c := if c.aborted then c else completeCalibration P q input firstRun c
  (c.fault, closeCalibration q c)

/-! ## What the loop changes -/

/-- The second state differs from the first only in what looking at traces can
change. -/
def ExaminesOnly (before after : AflState) : Prop :=
  ∃ trace virgin changed unstable first queue, after =
    { before with
      traceBits := trace
      virginBits := virgin
      bitmapChanged := changed
      varBytes := unstable
      firstTrace := first
      queueBuf := queue }

/-- The second state differs from the first only in what runs of the target and
looking at their traces can change. -/
def RunsOnly (before after : AflState) : Prop :=
  ∃ execs stop cpu mem, ExaminesOnly
    { before with
      totalExecs := execs
      stopSoon := stop
      cpuEnergyMap := cpu
      memEnergyMap := mem } after

theorem ExaminesOnly.trans {before middle after : AflState} (first : ExaminesOnly before middle)
    (second : ExaminesOnly middle after) : ExaminesOnly before after := by
  obtain ⟨_, _, _, _, _, _, rfl⟩ := first
  obtain ⟨_, _, _, _, _, _, rfl⟩ := second
  exact ⟨_, _, _, _, _, _, rfl⟩

theorem ExaminesOnly.runsOnly {before after : AflState} (same : ExaminesOnly before after) :
    RunsOnly before after := ⟨_, _, _, _, same⟩

theorem RunsOnly.refl (afl : AflState) : RunsOnly afl afl :=
  ⟨_, _, _, _, _, _, _, _, _, _, rfl⟩

theorem RunsOnly.trans {before middle after : AflState} (first : RunsOnly before middle)
    (second : RunsOnly middle after) : RunsOnly before after := by
  obtain ⟨_, _, _, _, _, _, _, _, _, _, rfl⟩ := first
  obtain ⟨_, _, _, _, _, _, _, _, _, _, rfl⟩ := second
  exact ⟨_, _, _, _, _, _, _, _, _, _, rfl⟩

/-- What neither runs nor looking at traces can change is as before. -/
theorem RunsOnly.field {before after : AflState} {α : Type*} {field : AflState → α}
    (ignores : ∀ afl execs stop cpu mem trace virgin changed unstable first queue, field { afl with
      totalExecs := execs, stopSoon := stop, cpuEnergyMap := cpu, memEnergyMap := mem
      traceBits := trace, virginBits := virgin, bitmapChanged := changed, varBytes := unstable
      firstTrace := first, queueBuf := queue } = field afl)
    (same : RunsOnly before after) : field after = field before := by
  obtain ⟨_, _, _, _, _, _, _, _, _, _, rfl⟩ := same
  exact ignores before _ _ _ _ _ _ _ _ _ _

theorem fuzzRunTarget_runsOnly (afl : AflState) (outcome : RunOutcome) :
    RunsOnly afl (fuzzRunTarget afl outcome) := by
  obtain ⟨_, _, _, ran⟩ := fuzzRunTarget_eq afl outcome
  rw [ran]
  exact ⟨_, _, _, _, _, _, _, _, _, _, rfl⟩

theorem modifyEntry_examinesOnly (afl : AflState) (q : ℕ) (change : QueueEntry → QueueEntry) :
    ExaminesOnly afl (afl.modifyEntry q change) := ⟨_, _, _, _, _, _, rfl⟩

theorem saveFirstTrace_examinesOnly (afl : AflState) : ExaminesOnly afl (saveFirstTrace afl) :=
  ⟨_, _, _, _, _, _, rfl⟩

theorem markVariable_examinesOnly (afl : AflState) : ExaminesOnly afl (markVariable afl) :=
  ⟨_, _, _, _, _, _, rfl⟩

theorem hasNewBits_examinesOnly (W : WordSize) (afl : AflState) :
    ExaminesOnly afl (hasNewBits W afl .bits).2 := by
  unfold hasNewBits
  dsimp only
  split <;> exact ⟨_, _, _, _, _, _, rfl⟩

theorem hasNewBits_queueBuf (W : WordSize) (afl : AflState) :
    (hasNewBits W afl .bits).2.queueBuf = afl.queueBuf := by
  unfold hasNewBits
  dsimp only
  split <;> rfl

variable (P : Platform) (q : ℕ) (input : CalibrationInput) (c : Calibration)

/-- The state whose trace is classified. -/
def classifyTrace (P : Platform) (afl : AflState) : AflState :=
  { afl with traceBits := classifyCounts P.wordSize afl.mapSize afl.traceBits }

/-- The state whose classified trace was compared with `virgin_bits`. -/
def lookUpTrace (P : Platform) (afl : AflState) : AflState :=
  (hasNewBits P.wordSize (classifyTrace P afl) .bits).2

theorem lookUpTrace_queueBuf (afl : AflState) : (lookUpTrace P afl).queueBuf = afl.queueBuf :=
  hasNewBits_queueBuf P.wordSize (classifyTrace P afl)

/-- **What examining a trace does to the state**: the trace is classified, and one with another
checksum is looked up and kept, as a trace that varies if there is a checksum and as the first
one if not. -/
theorem examineTrace_afl :
    (examineTrace P q c).afl = classifyTrace P c.afl ∨
      ((c.afl.queueBuf q).execCksum ≠ 0 ∧
        (examineTrace P q c).afl = markVariable (lookUpTrace P c.afl)) ∨
      ∃ cksum, (examineTrace P q c).afl = saveFirstTrace
        ((lookUpTrace P c.afl).modifyEntry q fun e => { e with execCksum := cksum }) := by
  unfold examineTrace
  dsimp only
  split
  · split
    · rename_i known
      refine .inr (.inl ⟨?_, rfl⟩)
      rwa [← lookUpTrace_queueBuf P c.afl]
    · exact .inr (.inr ⟨_, rfl⟩)
  · exact .inl rfl

theorem examineTrace_examinesOnly : ExaminesOnly c.afl (examineTrace P q c).afl := by
  have classified : ExaminesOnly c.afl (classifyTrace P c.afl) := ⟨_, _, _, _, _, _, rfl⟩
  have looked : ExaminesOnly c.afl (lookUpTrace P c.afl) :=
    classified.trans (hasNewBits_examinesOnly P.wordSize _)
  rcases examineTrace_afl P q c with same | ⟨-, same⟩ | ⟨cksum, same⟩
  · rw [same]
    exact classified
  · rw [same]
    exact looked.trans (markVariable_examinesOnly _)
  · rw [same]
    exact (looked.trans (modifyEntry_examinesOnly _ _ _)).trans (saveFirstTrace_examinesOnly _)

theorem calibrationRound_runsOnly (stageCur : ℕ) :
    RunsOnly c.afl (calibrationRound P q input c stageCur).afl := by
  have ran := fuzzRunTarget_runsOnly c.afl (input.runs stageCur)
  unfold calibrationRound
  dsimp only
  split
  · exact RunsOnly.refl _
  · split
    · exact ran
    · split
      · exact ran
      · exact ran.trans (examineTrace_examinesOnly P q { c with
          afl := fuzzRunTarget c.afl (input.runs stageCur)
          fault := (input.runs stageCur).fault }).runsOnly

theorem startCalibration_examinesOnly (afl : AflState) :
    ExaminesOnly afl (startCalibration P afl q).afl := by
  have announced : ExaminesOnly afl (announceCalibration afl q) :=
    modifyEntry_examinesOnly afl q _
  unfold startCalibration calibrationNewBits
  dsimp only
  split
  · exact (announced.trans (saveFirstTrace_examinesOnly _)).trans
      (hasNewBits_examinesOnly P.wordSize _)
  · exact announced

theorem calibrationLoop_runsOnly (afl : AflState) :
    RunsOnly afl (calibrationLoop P afl q input).afl :=
  foldl_invariant (P := fun c : Calibration => RunsOnly afl c.afl)
    (startCalibration_examinesOnly P q afl).runsOnly
    fun stageCur _ c same => same.trans (calibrationRound_runsOnly P q input c stageCur)

/-- A field of the entries that calibration does not write, runs of the target
apart. -/
def IgnoresStatistics {α : Type*} (field : QueueEntry → α) : Prop :=
  ∀ (e : QueueEntry) cksum failed execUs bitmapSize handicap newCov tcRef mini,
    field { e with
      execCksum := cksum
      calFailed := failed
      execUs := execUs
      bitmapSize := bitmapSize
      handicap := handicap
      hasNewCov := newCov
      tcRef := tcRef
      traceMini := mini } = field e

variable {α : Type*} {field : QueueEntry → α}

theorem examineTrace_keeps (ignores : IgnoresStatistics field) (p : ℕ) :
    field ((examineTrace P q c).afl.queueBuf p) = field (c.afl.queueBuf p) := by
  have looked := lookUpTrace_queueBuf P c.afl
  rcases examineTrace_afl P q c with same | ⟨-, same⟩ | ⟨cksum, same⟩
  · rw [same, classifyTrace]
  · rw [same, markVariable, looked]
  · rw [same, saveFirstTrace]
    dsimp only
    rw [AflState.modifyEntry_keeps _ _ _ field (ignores _ _ _ _ _ _ _ _ _), looked]

theorem startCalibration_keeps (afl : AflState) (ignores : IgnoresStatistics field) (p : ℕ) :
    field ((startCalibration P afl q).afl.queueBuf p) = field (afl.queueBuf p) := by
  have announced : field ((announceCalibration afl q).queueBuf p) = field (afl.queueBuf p) :=
    AflState.modifyEntry_keeps _ _ _ field (ignores _ _ _ _ _ _ _ _ _) p
  unfold startCalibration calibrationNewBits
  dsimp only
  split
  · rw [hasNewBits_queueBuf]
    exact announced
  · exact announced

/-! ## One round -/

/-- A round does nothing, or it runs the target and aborts, or it runs the target and
examines the trace. -/
theorem calibrationRound_cases (k : ℕ) :
    ((c.aborted = true ∨ c.stageMax ≤ k) ∧ calibrationRound P q input c k = c) ∨
      (c.aborted = false ∧ k < c.stageMax ∧
        ((∃ fault, calibrationRound P q input c k =
            { c with afl := fuzzRunTarget c.afl (input.runs k), fault := fault, aborted := true }) ∨
          calibrationRound P q input c k = examineTrace P q
            { c with
              afl := fuzzRunTarget c.afl (input.runs k)
              fault := (input.runs k).fault })) := by
  by_cases idle : c.aborted = true ∨ c.stageMax ≤ k
  · exact Or.inl ⟨idle, if_pos idle⟩
  · refine Or.inr ⟨by simpa using fun set => idle (Or.inl set), by omega, ?_⟩
    unfold calibrationRound
    rw [if_neg idle]
    dsimp only
    split
    · exact Or.inl ⟨_, rfl⟩
    · split
      · exact Or.inl ⟨_, rfl⟩
      · exact Or.inr rfl

/-- A run that ends as expected, without a stop request and with a trace, is
accepted. -/
theorem calibrationRound_accepted {k : ℕ} (going : c.aborted = false) (below : k < c.stageMax)
    (running : c.afl.stopSoon = false) (quiet : (input.runs k).stopSoon = false)
    (expected : (input.runs k).fault = c.afl.crashMode)
    (hits : c.afl.nonInstrumentedMode = true ∨
      countBytes c.afl.realMapSize (input.runs k).trace ≠ 0) :
    calibrationRound P q input c k = examineTrace P q
      { c with afl := fuzzRunTarget c.afl (input.runs k), fault := (input.runs k).fault } := by
  unfold calibrationRound
  rw [if_neg (by simp [going, below])]
  dsimp only
  rw [if_neg, if_neg]
  · rcases hits with plain | hits
    · simp [plain]
    · simp [hits]
  · simp [running, quiet, expected]

theorem examineTrace_stopSoon : (examineTrace P q c).afl.stopSoon = c.afl.stopSoon := by
  obtain ⟨_, _, _, _, _, _, examined⟩ := examineTrace_examinesOnly P q c
  rw [examined]

theorem examineTrace_aborted : (examineTrace P q c).aborted = c.aborted := by
  unfold examineTrace calibrationNewBits
  dsimp only
  split
  · split <;> rfl
  · rfl

/-- Instability raises `stage_max` to its larger value. -/
theorem examineTrace_stageMax : (examineTrace P q c).stageMax = c.stageMax ∨
    (examineTrace P q c).stageMax = if c.afl.aflCalFast then 7 else calCyclesLong := by
  have same : (hasNewBits P.wordSize { c.afl with
      traceBits := classifyCounts P.wordSize c.afl.mapSize c.afl.traceBits } .bits).2.aflCalFast =
      c.afl.aflCalFast := by
    obtain ⟨_, _, _, _, _, _, looked⟩ := hasNewBits_examinesOnly P.wordSize { c.afl with
      traceBits := classifyCounts P.wordSize c.afl.mapSize c.afl.traceBits }
    rw [looked]
  unfold examineTrace calibrationNewBits
  dsimp only
  split
  · split
    · exact Or.inr (by rw [same])
    · exact Or.inl rfl
  · exact Or.inl rfl

/-- Before every round, `stage_max` is positive and at most its larger value. -/
def StageBounds (c : Calibration) : Prop :=
  0 < c.stageMax ∧ c.stageMax ≤ if c.afl.aflCalFast then 7 else calCyclesLong

theorem startCalibration_bounds (afl : AflState) : StageBounds (startCalibration P afl q) := by
  have stage : (startCalibration P afl q).stageMax = if afl.aflCalFast then 3 else 7 := by
    unfold startCalibration calibrationNewBits
    dsimp only
    split <;> rfl
  obtain ⟨_, _, _, _, _, _, started⟩ := startCalibration_examinesOnly P q afl
  rw [StageBounds, stage, started]
  cases afl.aflCalFast <;> simp [calCyclesLong]

/-- A round keeps the bounds and never lowers `stage_max`. -/
theorem calibrationRound_bounds (bounds : StageBounds c) (k : ℕ) :
    StageBounds (calibrationRound P q input c k) ∧
      c.stageMax ≤ (calibrationRound P q input c k).stageMax := by
  have fast : (calibrationRound P q input c k).afl.aflCalFast = c.afl.aflCalFast :=
    (calibrationRound_runsOnly P q input c k).field (by intros; rfl)
  have grows : (calibrationRound P q input c k).stageMax = c.stageMax ∨
      (calibrationRound P q input c k).stageMax =
        if c.afl.aflCalFast then 7 else calCyclesLong := by
    rcases calibrationRound_cases P q input c k with ⟨-, idle⟩ | ⟨-, -, ⟨fault, stopped⟩ | accepted⟩
    · exact Or.inl (by rw [idle])
    · exact Or.inl (by rw [stopped])
    · have same : (fuzzRunTarget c.afl (input.runs k)).aflCalFast = c.afl.aflCalFast := by
        obtain ⟨_, _, _, ran⟩ := fuzzRunTarget_eq c.afl (input.runs k)
        rw [ran]
        rfl
      rw [accepted, ← same]
      exact examineTrace_stageMax P q { c with
        afl := fuzzRunTarget c.afl (input.runs k)
        fault := (input.runs k).fault }
  obtain ⟨positive, below⟩ := bounds
  rw [StageBounds, fast]
  rcases grows with same | raised
  · rw [same]
    exact ⟨⟨positive, below⟩, le_rfl⟩
  · rw [raised]
    exact ⟨⟨positive.trans_le below, le_rfl⟩, below⟩

/-! ## Calibrations that complete -/

theorem startCalibration_aborted (afl : AflState) : (startCalibration P afl q).aborted = false := by
  unfold startCalibration calibrationNewBits
  dsimp only
  split <;> rfl

/-- `count_bytes` sees a hit in the first word. -/
theorem countBytes_ne_zero {realMapSize : ℕ} (mapped : 0 < realMapSize) {mem : Buffer} {j : ℕ}
    (first : j < 4) (hit : mem j ≠ 0) : countBytes realMapSize mem ≠ 0 := by
  have byte : byteOf (loadWord 4 mem 0) j ≠ 0 := by
    rw [byteOf_loadWord mem 0 first, Nat.mul_zero, Nat.zero_add]
    exact hit
  have word : loadWord 4 mem 0 ≠ 0 := fun zero => by
    rw [zero] at byte
    exact byte (by simp [byteOf])
  have counted : 0 < (List.range 4).countP fun k => byteOf (loadWord 4 mem 0) k != 0 :=
    List.countP_pos_iff.mpr ⟨j, List.mem_range.mpr first, by simpa using byte⟩
  have grows : 0 < (realMapSize + 3) / 4 → 0 < countBytes realMapSize mem := by
    refine foldl_range_invariant (P := fun count ret => 0 < count → 0 < ret)
      (fun positive => absurd positive (Nat.lt_irrefl 0)) ?_
    intro i _ ret soFar _
    dsimp only
    by_cases first : i = 0
    · subst first
      rw [if_neg word]
      omega
    · split
      · exact soFar (Nat.pos_of_ne_zero first)
      · exact Nat.add_pos_left (soFar (Nat.pos_of_ne_zero first)) _
  exact (grows (by omega)).ne'

/-- A calibration completes if all runs end as expected, leave a trace and are not stopped. -/
theorem calibrationLoop_completes (afl : AflState) (running : afl.stopSoon = false)
    (quiet : ∀ k, (input.runs k).stopSoon = false)
    (expected : ∀ k, (input.runs k).fault = afl.crashMode)
    (hits : ∀ k, countBytes afl.realMapSize (input.runs k).trace ≠ 0) :
    (calibrationLoop P afl q input).aborted = false := by
  refine (foldl_invariant (P := fun c : Calibration => RunsOnly afl c.afl ∧
    c.afl.stopSoon = false ∧ c.aborted = false) ⟨?_, ?_, startCalibration_aborted P q afl⟩ ?_).2.2
  · exact (startCalibration_examinesOnly P q afl).runsOnly
  · obtain ⟨_, _, _, _, _, _, started⟩ := startCalibration_examinesOnly P q afl
    rw [started]
    exact running
  · intro k _ c ⟨same, live, going⟩
    refine ⟨same.trans (calibrationRound_runsOnly P q _ c k), ?_⟩
    by_cases below : k < c.stageMax
    · have crashMode : c.afl.crashMode = afl.crashMode := same.field (by intros; rfl)
      have realMapSize : c.afl.realMapSize = afl.realMapSize := same.field (by intros; rfl)
      rw [calibrationRound_accepted P q input c going below live (quiet k)
        ((expected k).trans crashMode.symm) (.inr (realMapSize ▸ hits k)), examineTrace_aborted,
        examineTrace_stopSoon, fuzzRunTarget_stopSoon, live, quiet k]
      exact ⟨rfl, going⟩
    · have idle : calibrationRound P q input c k = c :=
        if_pos (Or.inr (Nat.le_of_not_lt below))
      rw [idle]
      exact ⟨live, going⟩

/-! ## What the statistics change -/

/-- The second state differs from the first only in what scoring an entry can
change. -/
def RatesOnly (before after : AflState) : Prop :=
  ∃ queue top changed, after =
    { before with queueBuf := queue, topRated := top, scoreChanged := changed }

theorem RatesOnly.refl (afl : AflState) : RatesOnly afl afl := ⟨_, _, _, rfl⟩

theorem RatesOnly.trans {before middle after : AflState} (first : RatesOnly before middle)
    (second : RatesOnly middle after) : RatesOnly before after := by
  obtain ⟨_, _, _, rfl⟩ := first
  obtain ⟨_, _, _, rfl⟩ := second
  exact ⟨_, _, _, rfl⟩

theorem contend_ratesOnly (libm : Libm) (afl : AflState) (q p2 factor len i : ℕ) :
    RatesOnly afl (contend libm afl q p2 factor len i) := by
  unfold contend
  split
  · exact ⟨_, _, _, rfl⟩
  · split
    · exact RatesOnly.refl _
    · split
      · exact RatesOnly.refl _
      · exact ⟨_, _, _, rfl⟩

theorem updateBitmapScore_ratesOnly (libm : Libm) (afl : AflState) (q : ℕ) (haveTrace : Bool) :
    RatesOnly afl (updateBitmapScore libm afl q haveTrace) := by
  unfold updateBitmapScore
  dsimp only
  split
  · exact RatesOnly.refl _
  · split
    · refine foldl_invariant (P := RatesOnly afl) (RatesOnly.refl _) fun i _ t same => ?_
      split
      · exact same.trans (contend_ratesOnly _ _ _ _ _ _ _)
      · exact same
    · exact RatesOnly.refl _

theorem insertWinner_keeps (afl : AflState) (q i len : ℕ) (ignores : IgnoresStatistics field)
    (p : ℕ) : field ((insertWinner afl q i len).queueBuf p) = field (afl.queueBuf p) := by
  unfold insertWinner QueueEntry.won
  dsimp only
  exact AflState.modifyEntry_keeps _ _ _ field (ignores _ _ _ _ _ _ _ _ _) p

theorem releaseWinner_keeps (afl : AflState) (top : ℕ) (ignores : IgnoresStatistics field)
    (p : ℕ) : field ((releaseWinner afl top).queueBuf p) = field (afl.queueBuf p) :=
  AflState.modifyEntry_keeps _ _ _ field (ignores _ _ _ _ _ _ _ _ _) p

theorem contend_keeps (libm : Libm) (afl : AflState) (q p2 factor len i : ℕ)
    (ignores : IgnoresStatistics field) (p : ℕ) :
    field ((contend libm afl q p2 factor len i).queueBuf p) = field (afl.queueBuf p) := by
  unfold contend
  split
  · exact insertWinner_keeps _ _ _ _ ignores p
  · split
    · rfl
    · split
      · rfl
      · rw [insertWinner_keeps _ _ _ _ ignores p, releaseWinner_keeps _ _ ignores p]

theorem updateBitmapScore_keeps (libm : Libm) (afl : AflState) (q : ℕ) (haveTrace : Bool)
    (ignores : IgnoresStatistics field) (p : ℕ) :
    field ((updateBitmapScore libm afl q haveTrace).queueBuf p) = field (afl.queueBuf p) := by
  unfold updateBitmapScore
  dsimp only
  split
  · rfl
  · split
    · refine foldl_invariant
        (P := fun t : AflState => field (t.queueBuf p) = field (afl.queueBuf p)) rfl ?_
      intro i _ t same
      split
      · rw [contend_keeps _ _ _ _ _ _ _ ignores p, same]
      · exact same
    · rfl

theorem recordStatistics_keeps (afl : AflState) (stageMax : ℕ) (ignores : IgnoresStatistics field)
    (p : ℕ) :
    field ((recordStatistics afl q input stageMax).queueBuf p) = field (afl.queueBuf p) := by
  unfold recordStatistics
  dsimp only
  exact AflState.modifyEntry_keeps _ _ _ field (ignores _ _ _ _ _ _ _ _ _) p

theorem closeCalibration_keeps (ignores : IgnoresStatistics field) (p : ℕ) :
    field ((closeCalibration q c).queueBuf p) = field (c.afl.queueBuf p) := by
  have covered : field ((c.afl.modifyEntry q fun e => { e with hasNewCov := true }).queueBuf p) =
      field (c.afl.queueBuf p) :=
    AflState.modifyEntry_keeps _ _ _ field (ignores _ _ _ _ _ _ _ _ _) p
  unfold closeCalibration
  dsimp only
  split <;> split <;> first | exact covered | rfl

/-- After the loop nothing but statistics changes, in the entries. -/
theorem calibrateCase_keeps (afl : AflState) (ignores : IgnoresStatistics field) (p : ℕ) :
    field ((calibrateCase P afl q input).2.queueBuf p) =
      field ((calibrationLoop P afl q input).afl.queueBuf p) := by
  unfold calibrateCase
  dsimp only
  rw [closeCalibration_keeps _ _ ignores]
  split
  · rfl
  · unfold completeCalibration
    dsimp only
    rw [updateBitmapScore_keeps _ _ _ _ ignores, recordStatistics_keeps _ _ _ _ ignores]

end GreenFuzz.AflFuzz
