import GreenFuzz.AflFuzz.Splicing
import GreenFuzz.AflFuzz.VarBytes
import Mathlib.Data.List.Chain
import Mathlib.Data.List.TakeWhile

/-!
# Entries with variable behaviour

`calibrate_case` counts an entry in `queued_variable` when its runs vary, unless `var_behavior` is
set for it, and a fast resume counts the entries that it reads with the flag. But no code sets
the flag. So an entry is counted again by every calibration that sees it vary, and the counter is
the number of entries with the flag only as long as no entry without it varies
(`variableCounted_of_reachable`).

Whether a calibration sees an entry vary depends on the checksums of the traces it compares
(`varDetected_iff`).
-/

set_option autoImplicit false

namespace GreenFuzz.AflFuzz

open Library

/-! ## The checksums that are compared -/

/-- The checksum of the trace of run `k`. -/
def runCksum (P : Platform) (afl : AflState) (input : CalibrationInput) (k : ℕ) : ℕ :=
  P.hash64 afl.mapSize (classifyCounts P.wordSize afl.mapSize (input.runs k).trace)

/-- Run `k` does not abort the calibration. -/
def Accepted (afl : AflState) (input : CalibrationInput) (k : ℕ) : Prop :=
  afl.stopSoon = false ∧ (input.runs k).stopSoon = false ∧ (input.runs k).fault = afl.crashMode ∧
    (afl.nonInstrumentedMode = true ∨ countBytes afl.realMapSize (input.runs k).trace ≠ 0)

instance (afl : AflState) (input : CalibrationInput) (k : ℕ) : Decidable (Accepted afl input k) :=
  inferInstanceAs (Decidable (_ ∧ _))

/-- The checksum of the entry, and those of the runs before round `k` up to one that aborts. -/
def cksumsBefore (P : Platform) (afl : AflState) (q : ℕ) (input : CalibrationInput) (k : ℕ) :
    List ℕ :=
  (if afl.cmplogMode then 0 else (afl.queueBuf q).execCksum) ::
    ((List.range k).takeWhile fun j => Accepted afl input j).map (runCksum P afl input)

/-- The first value of `stage_max`. -/
def calCycles (afl : AflState) : ℕ := if afl.aflCalFast then 3 else 7

/-- Once there is a checksum, the others are the same. -/
def Steady (cksums : List ℕ) : Prop := cksums.IsChain fun a b => a ≠ 0 → b = a

/-- The runs that a calibration plans leave steady checksums. -/
def SteadyEntry (P : Platform) (afl : AflState) (q : ℕ) (input : CalibrationInput) : Prop :=
  Steady (cksumsBefore P afl q input (calCycles afl))

instance : DecidablePred Steady := fun cksums => inferInstanceAs (Decidable (cksums.IsChain _))

instance (P : Platform) (afl : AflState) (q : ℕ) (input : CalibrationInput) :
    Decidable (SteadyEntry P afl q input) :=
  inferInstanceAs (Decidable (Steady _))

variable {P : Platform} {afl : AflState} {q k : ℕ} {input : CalibrationInput} {c : Calibration}

theorem cksumsBefore_of_accepted (accepted : ∀ j ≤ k, Accepted afl input j) :
    cksumsBefore P afl q input (k + 1) =
      cksumsBefore P afl q input k ++ [runCksum P afl input k] := by
  have all (n : ℕ) (le : n ≤ k + 1) :
      (List.range n).takeWhile (fun j => decide (Accepted afl input j)) = List.range n := by
    refine List.takeWhile_eq_self_iff.mpr fun j member => decide_eq_true (accepted j ?_)
    have := List.mem_range.mp member
    omega
  rw [cksumsBefore, cksumsBefore, all _ le_rfl, all _ (Nat.le_succ k), List.range_succ,
    List.map_append, List.cons_append]
  rfl

theorem cksumsBefore_of_refused {j : ℕ} (le : j ≤ k) (refused : ¬ Accepted afl input j) :
    cksumsBefore P afl q input (k + 1) = cksumsBefore P afl q input k := by
  have stops : (List.range (k + 1)).takeWhile (fun j => decide (Accepted afl input j)) =
      (List.range k).takeWhile fun j => decide (Accepted afl input j) := by
    rw [List.range_succ, List.takeWhile_append]
    split
    · rename_i whole
      have before := List.takeWhile_eq_self_iff.mp ((List.takeWhile_prefix _).eq_of_length whole)
      have last : j = k := by
        by_contra other
        exact refused (of_decide_eq_true (before j (List.mem_range.mpr (by omega))))
      subst last
      rw [List.takeWhile_cons_of_neg (by simpa using refused), List.append_nil]
      exact (List.takeWhile_eq_self_iff.mpr before).symm
    · rfl
  rw [cksumsBefore, cksumsBefore, stops]

theorem steady_append {cksums : List ℕ} {last next : ℕ} (end_ : cksums.getLast? = some last) :
    Steady (cksums ++ [next]) ↔ Steady cksums ∧ (last ≠ 0 → next = last) := by
  unfold Steady
  rw [List.isChain_append, end_]
  simp

/-! ## One round -/

/-- A trace with the checksum of the entry, or the first one, is no sign of instability. -/
theorem examineTrace_of_steady
    (steady : (c.afl.queueBuf q).execCksum ≠ 0 →
      P.hash64 c.afl.mapSize (classifyCounts P.wordSize c.afl.mapSize c.afl.traceBits) =
        (c.afl.queueBuf q).execCksum) :
    (examineTrace P q c).varDetected = c.varDetected ∧
      (examineTrace P q c).stageMax = c.stageMax ∧
      ((examineTrace P q c).afl.queueBuf q).execCksum =
        P.hash64 c.afl.mapSize (classifyCounts P.wordSize c.afl.mapSize c.afl.traceBits) := by
  have looked := lookUpTrace_queueBuf P c.afl
  unfold lookUpTrace classifyTrace at looked
  unfold examineTrace calibrationNewBits
  dsimp only
  split
  · rename_i differ
    rw [looked, if_neg fun known => differ (steady known).symm]
    refine ⟨rfl, rfl, ?_⟩
    dsimp only [saveFirstTrace]
    rw [AflState.modifyEntry_queueBuf_self]
  · rename_i same
    exact ⟨rfl, rfl, not_not.mp same⟩

theorem examineTrace_of_varies (known : (c.afl.queueBuf q).execCksum ≠ 0)
    (varies : P.hash64 c.afl.mapSize (classifyCounts P.wordSize c.afl.mapSize c.afl.traceBits) ≠
      (c.afl.queueBuf q).execCksum) : (examineTrace P q c).varDetected = true := by
  have looked := lookUpTrace_queueBuf P c.afl
  unfold lookUpTrace classifyTrace at looked
  unfold examineTrace calibrationNewBits
  dsimp only
  rw [if_pos varies.symm, looked, if_pos known]

/-- Instability is not forgotten. -/
theorem calibrationRound_varDetected (P : Platform) (q : ℕ) (input : CalibrationInput)
    (detected : c.varDetected = true) (k : ℕ) :
    (calibrationRound P q input c k).varDetected = true := by
  have examines (d : Calibration) (detected : d.varDetected = true) :
      (examineTrace P q d).varDetected = true := by
    by_cases varies : (d.afl.queueBuf q).execCksum ≠ 0 ∧
        P.hash64 d.afl.mapSize (classifyCounts P.wordSize d.afl.mapSize d.afl.traceBits) ≠
          (d.afl.queueBuf q).execCksum
    · exact examineTrace_of_varies varies.1 varies.2
    · rw [(examineTrace_of_steady fun known => not_not.mp fun other => varies ⟨known, other⟩).1]
      exact detected
  rcases calibrationRound_cases P q input c k with ⟨-, idle⟩ | ⟨-, -, ⟨fault, stopped⟩ | accepted⟩
  · rw [idle]
    exact detected
  · rw [stopped]
    exact detected
  · rw [accepted]
    exact examines _ detected

/-- Before an abort only accepted runs took place, and nothing has stopped the fuzzer since. -/
structure Underway (afl : AflState) (c : Calibration) : Prop where
  runs : RunsOnly afl c.afl
  live : c.aborted = false → c.afl.stopSoon = afl.stopSoon

theorem Underway.crashMode (underway : Underway afl c) : c.afl.crashMode = afl.crashMode :=
  underway.runs.field (by intros; rfl)

theorem Underway.nonInstrumentedMode (underway : Underway afl c) :
    c.afl.nonInstrumentedMode = afl.nonInstrumentedMode := underway.runs.field (by intros; rfl)

theorem Underway.mapSize (underway : Underway afl c) : c.afl.mapSize = afl.mapSize :=
  underway.runs.field (by intros; rfl)

theorem Underway.realMapSize (underway : Underway afl c) :
    c.afl.realMapSize = afl.realMapSize := underway.runs.field (by intros; rfl)

theorem calibrationRound_of_accepted (underway : Underway afl c) (going : c.aborted = false)
    (below : k < c.stageMax) (accepted : Accepted afl input k) :
    calibrationRound P q input c k = examineTrace P q { c with
      afl := fuzzRunTarget c.afl (input.runs k)
      fault := (input.runs k).fault } := by
  obtain ⟨live, quiet, expected, hits⟩ := accepted
  refine calibrationRound_accepted P q input c going below ((underway.live going).trans live) quiet
    (expected.trans underway.crashMode.symm) ?_
  rwa [underway.nonInstrumentedMode, underway.realMapSize]

theorem calibrationRound_of_refused (underway : Underway afl c) (going : c.aborted = false)
    (below : k < c.stageMax) (refused : ¬ Accepted afl input k) :
    ∃ fault, calibrationRound P q input c k =
      { c with afl := fuzzRunTarget c.afl (input.runs k), fault := fault, aborted := true } := by
  unfold calibrationRound
  rw [if_neg (by simp [going, below])]
  dsimp only
  split
  · exact ⟨_, rfl⟩
  · rename_i goes_on
    split
    · exact ⟨_, rfl⟩
    · rename_i traced
      refine absurd ?_ refused
      rw [fuzzRunTarget_stopSoon, fuzzRunTarget_crashMode, underway.live going, underway.crashMode]
        at goes_on
      rw [fuzzRunTarget_nonInstrumentedMode, fuzzRunTarget_realMapSize, fuzzRunTarget_traceBits,
        underway.nonInstrumentedMode, underway.realMapSize] at traced
      simp only [not_or, Bool.or_eq_true, not_not, Bool.not_eq_true] at goes_on
      obtain ⟨⟨live, quiet⟩, expected⟩ := goes_on
      refine ⟨live, quiet, expected, ?_⟩
      cases mode : afl.nonInstrumentedMode with
      | true => exact .inl rfl
      | false => exact .inr fun empty => traced ⟨by rw [mode]; rfl, empty⟩

/-! ## The loop -/

/-- **The invariant of the loop**: instability was detected exactly if the checksums are not
steady. Until then the entry has the last of them, and the loop goes on as planned up to a run
that aborts it. -/
structure Observed (P : Platform) (afl : AflState) (q : ℕ) (input : CalibrationInput) (k : ℕ)
    (c : Calibration) : Prop where
  underway : Underway afl c
  detected : c.varDetected = true ↔ ¬ Steady (cksumsBefore P afl q input (min k (calCycles afl)))
  planned : c.varDetected = false → c.stageMax = calCycles afl
  known : c.varDetected = false →
    (cksumsBefore P afl q input (min k (calCycles afl))).getLast? =
      some (c.afl.queueBuf q).execCksum
  going : c.varDetected = false →
    (c.aborted = false ↔ ∀ j < min k (calCycles afl), Accepted afl input j)

theorem observed_start : Observed P afl q input 0 (startCalibration P afl q) := by
  have announced : ((announceCalibration afl q).queueBuf q).execCksum =
      if afl.cmplogMode then 0 else (afl.queueBuf q).execCksum := by
    rw [announceCalibration, AflState.modifyEntry_queueBuf_self]
  have quiet : (startCalibration P afl q).varDetected = false ∧
      (startCalibration P afl q).stageMax = calCycles afl ∧
      ((startCalibration P afl q).afl.queueBuf q).execCksum =
        if afl.cmplogMode then 0 else (afl.queueBuf q).execCksum := by
    rw [← announced]
    unfold startCalibration calibrationNewBits
    dsimp only
    split
    · exact ⟨rfl, rfl, congrArg (fun queue : ℕ → QueueEntry => (queue q).execCksum)
        (hasNewBits_queueBuf P.wordSize _)⟩
    · exact ⟨rfl, rfl, rfl⟩
  obtain ⟨undetected, planned, known⟩ := quiet
  have started := startCalibration_examinesOnly P q afl
  refine ⟨⟨started.runsOnly, fun _ => ?_⟩, ?_, fun _ => planned, fun _ => ?_, fun _ => ?_⟩
  · obtain ⟨_, _, _, _, _, _, same⟩ := started
    rw [same]
  · rw [undetected, Nat.zero_min]
    exact iff_of_false Bool.false_ne_true (not_not_intro (.singleton _))
  · rw [known, Nat.zero_min]
    rfl
  · rw [startCalibration_aborted, Nat.zero_min]
    exact iff_of_true rfl fun j below => absurd below (Nat.not_lt_zero j)

theorem underway_round (P : Platform) (q : ℕ) (input : CalibrationInput)
    (underway : Underway afl c) (k : ℕ) :
    Underway afl (calibrationRound P q input c k) := by
  refine ⟨underway.runs.trans (calibrationRound_runsOnly P q input c k), fun going => ?_⟩
  rcases calibrationRound_cases P q input c k with ⟨-, idle⟩ | ⟨goes, below, -⟩
  · rw [idle] at going ⊢
    exact underway.live going
  · by_cases accepted : Accepted afl input k
    · rw [calibrationRound_of_accepted underway goes below accepted]
      rw [examineTrace_stopSoon, fuzzRunTarget_stopSoon, accepted.2.1, Bool.or_false]
      exact underway.live goes
    · obtain ⟨fault, stopped⟩ := calibrationRound_of_refused (P := P) (q := q) underway goes below
        accepted
      rw [stopped] at going
      cases going

/-- A prefix of steady checksums is steady. -/
theorem steady_of_succ (steady : Steady (cksumsBefore P afl q input (k + 1))) :
    Steady (cksumsBefore P afl q input k) := by
  by_cases accepted : ∀ j ≤ k, Accepted afl input j
  · rw [cksumsBefore_of_accepted accepted] at steady
    exact steady.left_of_append
  · push Not at accepted
    obtain ⟨j, le, refused⟩ := accepted
    rwa [cksumsBefore_of_refused le refused] at steady

/-- A round that does nothing. -/
theorem Observed.of_idle (observed : Observed P afl q input k c)
    (idle : calibrationRound P q input c k = c)
    (same : cksumsBefore P afl q input (min (k + 1) (calCycles afl)) =
      cksumsBefore P afl q input (min k (calCycles afl)))
    (going : c.varDetected = false →
      (c.aborted = false ↔ ∀ j < min (k + 1) (calCycles afl), Accepted afl input j)) :
    Observed P afl q input (k + 1) (calibrationRound P q input c k) := by
  rw [idle]
  refine ⟨observed.underway, ?_, observed.planned, ?_, going⟩
  · rw [same]
    exact observed.detected
  · rw [same]
    exact observed.known

/-- An accepted run among the planned ones. -/
theorem Observed.accepted_round (observed : Observed P afl q input k c)
    (undetected : c.varDetected = false) (early : k < calCycles afl) (goes : c.aborted = false)
    (accepted : ∀ j < k + 1, Accepted afl input j) :
    Observed P afl q input (k + 1) (calibrationRound P q input c k) := by
  have known := observed.known undetected
  have detected := observed.detected
  rw [Nat.min_eq_left early.le] at known detected
  have steady : Steady (cksumsBefore P afl q input k) :=
    not_not.mp fun unsteady => absurd (detected.mpr unsteady) (by simp [undetected])
  have below : k < c.stageMax := (observed.planned undetected).symm ▸ early
  have extended := cksumsBefore_of_accepted (P := P) (q := q)
    fun j le => accepted j (Nat.lt_succ_of_le le)
  have next := underway_round P q input observed.underway k
  rw [calibrationRound_of_accepted observed.underway goes below (accepted k (Nat.lt_succ_self k))]
    at next ⊢
  have queue := fuzzRunTarget_keeps ignoresCosts_execCksum c.afl (input.runs k) q
  have cksum : P.hash64 (fuzzRunTarget c.afl (input.runs k)).mapSize (classifyCounts P.wordSize
      (fuzzRunTarget c.afl (input.runs k)).mapSize (fuzzRunTarget c.afl (input.runs k)).traceBits) =
        runCksum P afl input k := by
    rw [fuzzRunTarget_mapSize, fuzzRunTarget_traceBits, observed.underway.mapSize]
    rfl
  have later : min (k + 1) (calCycles afl) = k + 1 := Nat.min_eq_left early
  by_cases agrees : (c.afl.queueBuf q).execCksum ≠ 0 →
      runCksum P afl input k = (c.afl.queueBuf q).execCksum
  · obtain ⟨same, stage, stored⟩ := examineTrace_of_steady (P := P) (q := q) (c := { c with
      afl := fuzzRunTarget c.afl (input.runs k)
      fault := (input.runs k).fault }) (by rw [cksum, queue]; exact agrees)
    refine ⟨next, ?_, fun _ => ?_, fun _ => ?_, fun _ => ?_⟩
    · rw [same, later, extended, steady_append known]
      exact iff_of_false (by simp [undetected]) (not_not_intro ⟨steady, agrees⟩)
    · rw [stage]
      exact observed.planned undetected
    · rw [later, extended, stored, cksum, List.getLast?_concat]
    · rw [later, examineTrace_aborted]
      exact iff_of_true goes accepted
  · have varies : (c.afl.queueBuf q).execCksum ≠ 0 ∧
        runCksum P afl input k ≠ (c.afl.queueBuf q).execCksum := by
      rwa [← Classical.not_imp]
    have found := examineTrace_of_varies (P := P) (q := q) (c := { c with
      afl := fuzzRunTarget c.afl (input.runs k)
      fault := (input.runs k).fault })
      (by rw [queue]; exact varies.1) (by rw [cksum, queue]; exact varies.2)
    refine ⟨next, ?_, ?_, ?_, ?_⟩
    · rw [later, extended, steady_append known]
      exact iff_of_true found fun both => agrees both.2
    all_goals
      intro undetected
      rw [found] at undetected
      cases undetected

/-- Round `k` is one of the planned ones, and instability was not detected before it. -/
theorem Observed.planned_round (observed : Observed P afl q input k c)
    (undetected : c.varDetected = false) (early : k < calCycles afl) :
    Observed P afl q input (k + 1) (calibrationRound P q input c k) := by
  have now : min k (calCycles afl) = k := Nat.min_eq_left early.le
  have later : min (k + 1) (calCycles afl) = k + 1 := Nat.min_eq_left early
  have going := observed.going undetected
  rw [now] at going
  by_cases goes : c.aborted = false
  · have below : k < c.stageMax := (observed.planned undetected).symm ▸ early
    have before := going.mp goes
    by_cases accepted : Accepted afl input k
    · refine observed.accepted_round undetected early goes fun j inside => ?_
      rcases Nat.lt_succ_iff_lt_or_eq.mp inside with earlier | rfl
      · exact before j earlier
      · exact accepted
    · obtain ⟨fault, stopped⟩ := calibrationRound_of_refused (P := P) (q := q) observed.underway
        goes below accepted
      have queue := fuzzRunTarget_keeps ignoresCosts_execCksum c.afl (input.runs k) q
      have next := underway_round P q input observed.underway k
      have same := cksumsBefore_of_refused (P := P) (q := q) le_rfl accepted
      rw [stopped] at next ⊢
      refine ⟨next, ?_, observed.planned, fun _ => ?_, fun _ => ?_⟩
      · rw [later, same, ← now]
        exact now.symm ▸ observed.detected
      · rw [later, same]
        have known := observed.known undetected
        rw [now] at known
        rw [known]
        exact congrArg some queue.symm
      · rw [later]
        exact iff_of_false (by simp) fun all => accepted (all k (Nat.lt_succ_self k))
  · have refused : ∃ j < k, ¬ Accepted afl input j := by
      by_contra none_refused
      push Not at none_refused
      exact goes (going.mpr none_refused)
    obtain ⟨j, earlier, refused⟩ := refused
    refine observed.of_idle (if_pos (.inl (by simpa using goes))) ?_ fun _ => ?_
    · rw [later, now]
      exact cksumsBefore_of_refused earlier.le refused
    · rw [later]
      exact iff_of_false goes fun all => refused (all j (Nat.lt_succ_of_lt earlier))

theorem observed_round (observed : Observed P afl q input k c) :
    Observed P afl q input (k + 1) (calibrationRound P q input c k) := by
  by_cases detected : c.varDetected = true
  · have still := calibrationRound_varDetected P q input detected k
    have stays : ¬ c.varDetected = false := by simp [detected]
    refine ⟨underway_round P q input observed.underway k,
      iff_of_true still fun steady => ?_, ?_, ?_, ?_⟩
    · refine observed.detected.mp detected ?_
      rcases Nat.lt_or_ge k (calCycles afl) with early | late
      · rw [Nat.min_eq_left early] at steady
        rw [Nat.min_eq_left early.le]
        exact steady_of_succ steady
      · rw [Nat.min_eq_right (by omega)] at steady ⊢
        exact steady
    all_goals
      intro undetected
      rw [still] at undetected
      cases undetected
  · have undetected : c.varDetected = false := by simpa using detected
    rcases Nat.lt_or_ge k (calCycles afl) with early | late
    · exact observed.planned_round undetected early
    · have same : min (k + 1) (calCycles afl) = min k (calCycles afl) := by omega
      have ended : c.stageMax ≤ k := by
        rw [observed.planned undetected]
        exact late
      refine observed.of_idle (if_pos (.inr ended)) (by rw [same]) ?_
      rw [same]
      exact observed.going

/-- **A calibration detects instability exactly if the checksums of its runs are not steady.** -/
theorem varDetected_iff (P : Platform) (afl : AflState) (q : ℕ) (input : CalibrationInput) :
    (calibrationLoop P afl q input).varDetected = true ↔ ¬ SteadyEntry P afl q input := by
  have observed (k : ℕ) : Observed P afl q input k (calibrationBefore P afl q input k) := by
    induction k with
    | zero => exact observed_start
    | succ k ih =>
        rw [calibrationBefore, List.range_succ, List.foldl_append]
        exact observed_round ih
  have planned : min calCyclesLong (calCycles afl) = calCycles afl := by
    unfold calCycles calCyclesLong
    split <;> rfl
  have detected := (observed calCyclesLong).detected
  rw [planned] at detected
  exact detected

/-! ## The counter -/

/-- The entry is marked as variable. -/
def IsVariable (afl : AflState) (q : ℕ) : Prop := (afl.queueBuf q).varBehavior = true

instance (afl : AflState) : DecidablePred (IsVariable afl) := fun q =>
  inferInstanceAs (Decidable ((afl.queueBuf q).varBehavior = true))

/-- The counter is the number of marked entries. The queue has at most as many entries as a `u32`
can count. -/
structure VariableCounted (afl : AflState) : Prop where
  bound : afl.queuedItems < 2 ^ 32
  counter : afl.queuedVariable = Nat.count (IsVariable afl) afl.queuedItems

theorem ignoresCosts_varBehavior : IgnoresCosts QueueEntry.varBehavior := by
  intro e resource value
  cases resource <;> rfl

/-- A calibration marks no entry. -/
theorem calibrateCase_varBehavior (P : Platform) (afl : AflState) (q : ℕ)
    (input : CalibrationInput) (p : ℕ) :
    ((calibrateCase P afl q input).2.queueBuf p).varBehavior = (afl.queueBuf p).varBehavior :=
  calibrateCase_len P afl q input ignoresCosts_varBehavior (fun _ _ _ _ _ _ _ _ _ => rfl) p

/-- The end of a calibration that was not aborted leaves the counter and the marks alone. -/
theorem completeCalibration_variable (P : Platform) (q : ℕ) (input : CalibrationInput)
    (firstRun : Bool) (c : Calibration) :
    (completeCalibration P q input firstRun c).varDetected = c.varDetected ∧
      (completeCalibration P q input firstRun c).afl.queuedVariable = c.afl.queuedVariable ∧
      ((completeCalibration P q input firstRun c).afl.queueBuf q).varBehavior =
        (c.afl.queueBuf q).varBehavior := by
  have ignores : IgnoresStatistics QueueEntry.varBehavior := fun _ _ _ _ _ _ _ _ _ => rfl
  refine ⟨rfl, ?_, ?_⟩
  · obtain ⟨_, _, _, rated⟩ :=
      updateBitmapScore_ratesOnly P.libm (recordStatistics c.afl q input c.stageMax) q true
    unfold completeCalibration
    dsimp only
    rw [rated]
    rfl
  · unfold completeCalibration
    dsimp only
    rw [updateBitmapScore_keeps _ _ _ _ ignores, recordStatistics_keeps _ _ _ _ ignores]

theorem closeCalibration_queuedVariable (q : ℕ) (c : Calibration) :
    (closeCalibration q c).queuedVariable =
      if c.varDetected = true ∧ (c.afl.queueBuf q).varBehavior = false then
        u32 (c.afl.queuedVariable + 1)
      else c.afl.queuedVariable := by
  have same : ((c.afl.modifyEntry q fun e => { e with hasNewCov := true }).queueBuf q).varBehavior =
      (c.afl.queueBuf q).varBehavior := by
    rw [AflState.modifyEntry_queueBuf_self]
  unfold closeCalibration
  dsimp only
  cases c.varDetected with
  | false =>
      simp only [Bool.false_eq_true, false_and, if_false]
      split <;> rfl
  | true =>
      rw [if_pos rfl]
      split
      · dsimp only
        rw [same]
        cases (c.afl.queueBuf q).varBehavior <;> rfl
      · cases (c.afl.queueBuf q).varBehavior <;> rfl

/-- What a calibration counts. -/
theorem calibrateCase_queuedVariable (P : Platform) (afl : AflState) (q : ℕ)
    (input : CalibrationInput) :
    (calibrateCase P afl q input).2.queuedVariable =
      if ¬ SteadyEntry P afl q input ∧ (afl.queueBuf q).varBehavior = false then
        u32 (afl.queuedVariable + 1)
      else afl.queuedVariable := by
  have looped : ((calibrationLoop P afl q input).afl.queueBuf q).varBehavior =
        (afl.queueBuf q).varBehavior ∧
      (calibrationLoop P afl q input).afl.queuedVariable = afl.queuedVariable := by
    constructor
    · have ignores : IgnoresStatistics QueueEntry.varBehavior := fun _ _ _ _ _ _ _ _ _ => rfl
      rw [← calibrateCase_keeps P q input afl ignores]
      exact calibrateCase_varBehavior P afl q input q
    · exact (calibrationLoop_runsOnly P q input afl).field (by intros; rfl)
  unfold calibrateCase
  dsimp only
  rw [closeCalibration_queuedVariable]
  split
  · rw [looped.1, looped.2]
    simp only [varDetected_iff]
  · obtain ⟨found, counter, mark⟩ := completeCalibration_variable P q input
      ((afl.queueBuf q).execCksum == 0) (calibrationLoop P afl q input)
    rw [found, counter, mark, looped.1, looped.2]
    simp only [varDetected_iff]

/-- **A calibration keeps the counter right exactly if the entry is marked or steady.** -/
theorem VariableCounted.calibrate_iff (counted : VariableCounted afl) :
    VariableCounted (calibrateCase P afl q input).2 ↔
      IsVariable afl q ∨ SteadyEntry P afl q input := by
  have items : (calibrateCase P afl q input).2.queuedItems = afl.queuedItems :=
    (sameSplicing_calibrateCase P afl q input).items
  have same : Nat.count (IsVariable (calibrateCase P afl q input).2) afl.queuedItems =
      Nat.count (IsVariable afl) afl.queuedItems :=
    count_congr_below fun p _ => by
      rw [IsVariable, calibrateCase_varBehavior]
      exact Iff.rfl
  have few : Nat.count (IsVariable afl) afl.queuedItems ≤ afl.queuedItems := Nat.count_le _
  have bound := counted.bound
  constructor
  · intro after
    by_contra neither
    rw [not_or] at neither
    have counter := after.counter
    rw [calibrateCase_queuedVariable, if_pos ⟨neither.2, by simpa [IsVariable] using neither.1⟩,
      items, same, counted.counter] at counter
    unfold u32 at counter
    omega
  · intro meets
    refine ⟨items ▸ bound, ?_⟩
    rw [calibrateCase_queuedVariable, items, same, if_neg]
    · exact counted.counter
    · rintro ⟨unsteady, unmarked⟩
      refine meets.elim (fun marked => ?_) unsteady
      rw [IsVariable, unmarked] at marked
      cases marked

/-- A new entry is not marked. -/
theorem VariableCounted.add (counted : VariableCounted afl) (len : ℕ) (passedDet : Bool)
    (room : afl.queuedItems + 1 < 2 ^ 32) : VariableCounted (addToQueue afl len passedDet) := by
  refine ⟨room, ?_⟩
  show afl.queuedVariable = Nat.count (IsVariable (addToQueue afl len passedDet))
    (afl.queuedItems + 1)
  have new : ¬ IsVariable (addToQueue afl len passedDet) afl.queuedItems := by
    simp [IsVariable, addToQueue]
  rw [Nat.count_succ, if_neg new, Nat.add_zero, counted.counter]
  refine count_congr_below fun p inside => ?_
  rw [IsVariable, IsVariable, addToQueue_queueBuf, if_neg (Nat.ne_of_lt inside)]

/-! ## Resuming -/

/-- The first `i` records are read, and their marks counted. -/
structure CountedUpTo (items i : ℕ) (afl : AflState) : Prop where
  items : afl.queuedItems = items
  counter : afl.queuedVariable = Nat.count (IsVariable afl) i

theorem CountedUpTo.resumeRecord {libm : Libm} {state next : AflState × List Chunk} {n i : ℕ}
    (bound : n < 2 ^ 32) (inside : i < n) (counted : CountedUpTo n i state.1)
    (done : resumeRecord libm state i = .ok next) : CountedUpTo n (i + 1) next.1 := by
  obtain ⟨⟨record, rest⟩, -, last⟩ := bind_eq_ok_iff.mp done
  cases last
  have earlier (p : ℕ) (before : p < i) :
      (restoreEntry state.1 i record).queueBuf p = state.1.queueBuf p :=
    AflState.modifyEntry_queueBuf_of_ne _ _ _ (Nat.ne_of_lt before)
  have few : Nat.count (IsVariable state.1) i ≤ i := Nat.count_le _
  simp only [updateBitmapScore_no_trace, countRestored]
  refine ⟨counted.items, ?_⟩
  show (if ((restoreEntry state.1 i record).queueBuf i).varBehavior = true then
    u32 (state.1.queuedVariable + 1) else state.1.queuedVariable) =
      Nat.count (IsVariable (restoreEntry state.1 i record)) (i + 1)
  have same : Nat.count (IsVariable (restoreEntry state.1 i record)) i =
      Nat.count (IsVariable state.1) i :=
    count_congr_below fun p before => by
      rw [IsVariable, earlier p before]
      exact Iff.rfl
  rw [counted.counter, Nat.count_succ, same]
  by_cases marked : ((restoreEntry state.1 i record).queueBuf i).varBehavior = true
  · rw [if_pos marked, if_pos (show IsVariable _ i from marked)]
    exact Nat.mod_eq_of_lt (by omega)
  · rw [if_neg marked, if_neg (show ¬ IsVariable _ i from marked), Nat.add_zero]

/-- A fast resume counts the marks that it reads, from any file. -/
theorem variableCounted_fastResume {libm : Libm} {start t : AflState} {file : List Chunk}
    (bound : start.queuedItems < 2 ^ 32) (zero : start.queuedVariable = 0)
    (done : fastResume libm start file = .ok t) : VariableCounted t := by
  simp only [fastResume] at done
  split at done
  · rename_i bits tmout crash var records
    obtain ⟨⟨restored, rest⟩, loop, last⟩ := bind_eq_ok_iff.mp done
    have read : CountedUpTo start.queuedItems start.queuedItems restored :=
      foldlM_range_invariant
        (P := fun i (state : AflState × List Chunk) => CountedUpTo start.queuedItems i state.1)
        ⟨rfl, zero.trans (Nat.count_zero _).symm⟩
        (fun i inside _ _ so round => so.resumeRecord bound inside round) loop
    dsimp only at last
    split at last
    · cases last
      refine ⟨?_, ?_⟩
      · exact read.items.symm ▸ bound
      · exact read.counter.trans (congrArg (Nat.count _) read.items.symm)
    · cases last
  · cases done

/-- A mark survives the file that a session leaves. -/
theorem varBehavior_fastResume {libm : Libm} {s start t : AflState}
    (done : fastResume libm start (writeFastresume s) = .ok t) :
    t.queuedItems = s.queuedItems ∧
      ∀ p < s.queuedItems, (t.queueBuf p).varBehavior = (s.queueBuf p).varBehavior := by
  rw [fastResume_writeFastresume] at done
  split at done
  · rename_i same
    cases done
    refine ⟨(resumed_frame s start).1.trans same, fun p inside => ?_⟩
    rw [resumed_queueBuf s start (same ▸ inside)]
    rfl
  · split at done <;> cases done

/-! ## Runs -/

/-- A session, and the entries in which a calibration has detected instability. -/
structure VariableSession where
  afl : AflState
  detected : Finset ℕ := ∅

/-- The counter counts the marks, and an entry in which instability was detected is marked. -/
structure VariableCorrect (s : VariableSession) : Prop where
  counted : VariableCounted s.afl
  queued : ∀ q ∈ s.detected, q < s.afl.queuedItems
  marked : ∀ q ∈ s.detected, IsVariable s.afl q

/-- A calibration of a session. -/
def VariableSession.calibrate (P : Platform) (s : VariableSession) (q : ℕ)
    (input : CalibrationInput) : VariableSession where
  afl := (calibrateCase P s.afl q input).2
  detected :=
    if (calibrationLoop P s.afl q input).varDetected then insert q s.detected else s.detected

/-- The sessions that can come next. An entry that is calibrated is marked or steady. A fast resume
reads any file into a new session, or the file of this session, so that the entries stay what they
are. -/
inductive VariableStep (P : Platform) : VariableSession → VariableSession → Prop where
  | add {s : VariableSession} (len : ℕ) (passedDet : Bool)
      (room : s.afl.queuedItems + 1 < 2 ^ 32) :
      VariableStep P s { s with afl := addToQueue s.afl len passedDet }
  | calibrate {s : VariableSession} (q : ℕ) (input : CalibrationInput)
      (queued : q < s.afl.queuedItems)
      (meets : IsVariable s.afl q ∨ SteadyEntry P s.afl q input) :
      VariableStep P s (s.calibrate P q input)
  | resume {s : VariableSession} {start t : AflState} (file : List Chunk)
      (bound : start.queuedItems < 2 ^ 32) (zero : start.queuedVariable = 0)
      (done : fastResume P.libm start file = .ok t) : VariableStep P s { afl := t }
  | resumeOwn {s : VariableSession} {start t : AflState}
      (bound : start.queuedItems < 2 ^ 32) (zero : start.queuedVariable = 0)
      (done : fastResume P.libm start (writeFastresume s.afl) = .ok t) :
      VariableStep P s { s with afl := t }

def variableSystem (P : Platform) : TransitionSystem VariableSession where
  init s := s.afl.queuedItems = 0 ∧ s.afl.queuedVariable = 0 ∧ s.detected = ∅
  step := VariableStep P

theorem VariableCorrect.calibrate_iff {s : VariableSession} (correct : VariableCorrect s)
    (queued : q < s.afl.queuedItems) :
    VariableCorrect (s.calibrate P q input) ↔
      IsVariable s.afl q ∨ SteadyEntry P s.afl q input := by
  have items : (calibrateCase P s.afl q input).2.queuedItems = s.afl.queuedItems :=
    (sameSplicing_calibrateCase P s.afl q input).items
  refine ⟨fun after => correct.counted.calibrate_iff.mp after.counted, fun meets => ?_⟩
  have known : ∀ p ∈ (s.calibrate P q input).detected, p < s.afl.queuedItems ∧
      IsVariable s.afl p := by
    intro p member
    unfold VariableSession.calibrate at member
    dsimp only at member
    split at member
    · rename_i found
      rcases Finset.mem_insert.mp member with rfl | old
      · exact ⟨queued, meets.resolve_right ((varDetected_iff P s.afl p input).mp found)⟩
      · exact ⟨correct.queued p old, correct.marked p old⟩
    · exact ⟨correct.queued p member, correct.marked p member⟩
  refine ⟨correct.counted.calibrate_iff.mpr meets, fun p member => ?_, fun p member => ?_⟩
  · exact items.symm ▸ (known p member).1
  · show ((calibrateCase P s.afl q input).2.queueBuf p).varBehavior = true
    rw [calibrateCase_varBehavior]
    exact (known p member).2

/-- **In every run in which no unmarked entry varies, the counter is the number of marked entries
and instability was detected in marked entries only**, and a further calibration keeps it so
exactly if its entry is marked or does not vary. -/
theorem variableCorrect_of_reachable {s : VariableSession} (run : Reachable (variableSystem P) s) :
    VariableCorrect s ∧ ∀ q input, q < s.afl.queuedItems →
      (VariableCorrect (s.calibrate P q input) ↔
        IsVariable s.afl q ∨ SteadyEntry P s.afl q input) := by
  have correct : VariableCorrect s := by
    refine run.invariant (fun s start => ?_) fun s t _ correct taken => ?_
    · obtain ⟨empty, zero, undetected⟩ := start
      refine ⟨⟨by rw [empty]; decide, by rw [zero, empty, Nat.count_zero]⟩, ?_, ?_⟩ <;>
        simp [undetected]
    · cases taken with
      | add len passedDet room =>
          refine ⟨correct.counted.add len passedDet room, fun q member => ?_, fun q member => ?_⟩
          · exact Nat.lt_succ_of_lt (correct.queued q member)
          · show ((addToQueue s.afl len passedDet).queueBuf q).varBehavior = true
            rw [addToQueue_queueBuf, if_neg (Nat.ne_of_lt (correct.queued q member))]
            exact correct.marked q member
      | calibrate q input queued meets => exact (correct.calibrate_iff queued).mpr meets
      | resume file bound zero done =>
          exact ⟨variableCounted_fastResume bound zero done, by simp, by simp⟩
      | resumeOwn bound zero done =>
          obtain ⟨items, marks⟩ := varBehavior_fastResume done
          refine ⟨variableCounted_fastResume bound zero done,
            fun q member => ?_, fun q member => ?_⟩
          · exact items.symm ▸ correct.queued q member
          · exact (marks q (correct.queued q member)).trans (correct.marked q member)
  exact ⟨correct, fun q input queued => correct.calibrate_iff queued⟩

/-- A session with one entry of five bytes. -/
def oneAdded : VariableSession := { afl := addToQueue { mapSize := 8 } 5 false }

/-- The checksum tells whether byte 0 is hit. -/
def firstByteHash : Platform := ⟨word64, fun _ trace => (trace 0).toNat + 1, Libm.identity⟩

/-- The entry is calibrated twice. The first run of each calibration hits byte 0, the others
byte 1. -/
def twiceUnsteady : VariableSession :=
  let input : CalibrationInput :=
    { runs := fun k => { trace := fun i => if i = min k 1 then 1 else 0 } }
  (oneAdded.calibrate firstByteHash 0 input).calibrate firstByteHash 0 input

theorem counted_twice : twiceUnsteady.afl.queuedItems = 1 ∧ twiceUnsteady.afl.queuedVariable = 2 ∧
    twiceUnsteady.detected = {0} ∧ ¬ IsVariable twiceUnsteady.afl 0 ∧
      ¬ VariableCorrect twiceUnsteady := by
  have facts : twiceUnsteady.afl.queuedItems = 1 ∧ twiceUnsteady.afl.queuedVariable = 2 ∧
      twiceUnsteady.detected = {0} ∧ ¬ IsVariable twiceUnsteady.afl 0 := by decide +kernel
  obtain ⟨items, counter, detected, unmarked⟩ := facts
  refine ⟨items, counter, detected, unmarked, fun correct => unmarked ?_⟩
  exact correct.marked 0 (by rw [detected]; exact Finset.mem_singleton_self 0)

/-- All runs hit byte 0. -/
theorem variableCorrect_of_reachable_steady :
    VariableCorrect (oneAdded.calibrate firstByteHash 0
      { runs := fun _ => { trace := fun i => if i = 0 then 1 else 0 } }) := by
  have start : Reachable (variableSystem firstByteHash) { afl := { mapSize := 8 } } :=
    .init ⟨rfl, rfl, rfl⟩
  have added : Reachable (variableSystem firstByteHash) oneAdded :=
    start.step (.add 5 false (by decide))
  exact (variableCorrect_of_reachable (added.step
    (.calibrate 0 _ (by decide) (.inr (by decide +kernel))))).1

end GreenFuzz.AflFuzz
