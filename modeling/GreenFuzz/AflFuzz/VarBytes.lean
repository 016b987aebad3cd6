import GreenFuzz.AflFuzz.Calibrate
import GreenFuzz.AflFuzz.NewBits

/-!
# Variable bytes

What one call of `calibrate_case` writes into `var_bytes`. The loop compares the trace of every
run that has a new checksum with a first trace. This is the trace that the caller left in the
map, if the entry has a checksum already, and else that of the first run. So a byte is marked
only where two of these traces differ: the one of the caller and those of the runs that took
place (`calibrateCase_marks`).

The trace of the caller is compared as it is, and those of the runs are classified. Whether the
caller classified its trace too is not seen here.
-/

set_option autoImplicit false

namespace GreenFuzz.AflFuzz

open Library

/-! ## The runs of a calibration -/

/-- The calibration before round `k`. -/
def calibrationBefore (P : Platform) (afl : AflState) (q : ℕ) (input : CalibrationInput) (k : ℕ) :
    Calibration :=
  (List.range k).foldl (calibrationRound P q input) (startCalibration P afl q)

/-- Round `k` runs the target. -/
def RunsTarget (P : Platform) (afl : AflState) (q : ℕ) (input : CalibrationInput) (k : ℕ) : Prop :=
  (calibrationBefore P afl q input k).aborted = false ∧
    k < (calibrationBefore P afl q input k).stageMax

instance (P : Platform) (afl : AflState) (q : ℕ) (input : CalibrationInput) (k : ℕ) :
    Decidable (RunsTarget P afl q input k) :=
  inferInstanceAs (Decidable (_ ∧ _))

/-- The traces that a calibration compares: the one that the caller left, for an entry with a
checksum, and those of its runs. -/
def Compared (P : Platform) (afl : AflState) (q : ℕ) (input : CalibrationInput)
    (trace : Buffer) : Prop :=
  (afl.cmplogMode = false ∧ (afl.queueBuf q).execCksum ≠ 0 ∧ trace = afl.traceBits) ∨
    ∃ k, RunsTarget P afl q input k ∧
      trace = classifyCounts P.wordSize afl.mapSize (input.runs k).trace

/-- The byte was marked as variable, and two of the traces differ there. -/
structure MarkedFrom (traces : Buffer → Prop) (before after : AflState) (i : ℕ) : Prop where
  inside : i < before.mapSize
  unset : before.varBytes i = 0
  set : after.varBytes i = 1
  cleared : after.virginBits i = 0
  differ : ∃ d e, traces d ∧ traces e ∧ d i ≠ e i

/-- **The invariant of the loop**: the first trace is one of the compared traces, and so are two
traces that differ at a marked byte. -/
structure MarksCompared (P : Platform) (afl : AflState) (q : ℕ) (input : CalibrationInput)
    (c : Calibration) : Prop where
  mapSize : c.afl.mapSize = afl.mapSize
  first : (c.afl.queueBuf q).execCksum ≠ 0 →
    ∃ trace, Compared P afl q input trace ∧ ∀ i < afl.mapSize, c.afl.firstTrace i = trace i
  marked : ∀ i, c.afl.varBytes i ≠ afl.varBytes i →
    MarkedFrom (Compared P afl q input) afl c.afl i

/-! ## What a round does to the bytes -/

/-- Neither the variable bytes changed, nor a virgin byte that was cleared. -/
structure SameVariable (before after : AflState) : Prop where
  mapSize : after.mapSize = before.mapSize
  varBytes : after.varBytes = before.varBytes
  cleared : ∀ i, before.virginBits i = 0 → after.virginBits i = 0

variable {P : Platform} {afl before middle after : AflState} {q : ℕ} {input : CalibrationInput}
  {c : Calibration} {traces : Buffer → Prop} {i : ℕ}

theorem SameVariable.refl (afl : AflState) : SameVariable afl afl := ⟨rfl, rfl, fun _ zero => zero⟩

theorem SameVariable.trans (first : SameVariable before middle)
    (second : SameVariable middle after) : SameVariable before after where
  mapSize := second.mapSize.trans first.mapSize
  varBytes := second.varBytes.trans first.varBytes
  cleared i zero := second.cleared i (first.cleared i zero)

/-- A marked byte stays marked. -/
theorem MarkedFrom.of_same (marked : MarkedFrom traces before middle i)
    (same : SameVariable middle after) : MarkedFrom traces before after i where
  inside := marked.inside
  unset := marked.unset
  set := (congrFun same.varBytes i).trans marked.set
  cleared := same.cleared i marked.cleared
  differ := marked.differ

theorem ignoresCosts_execCksum : IgnoresCosts QueueEntry.execCksum := by
  intro e resource value
  cases resource <;> rfl

theorem sameVariable_fuzzRunTarget (afl : AflState) (outcome : RunOutcome) :
    SameVariable afl (fuzzRunTarget afl outcome) := by
  obtain ⟨_, _, _, ran⟩ := fuzzRunTarget_eq afl outcome
  rw [ran]
  exact ⟨rfl, rfl, fun _ zero => zero⟩

/-- `has_new_bits` sets no bit of `virgin_bits`. -/
theorem sameVariable_hasNewBits (W : WordSize) (afl : AflState) :
    SameVariable afl (hasNewBits W afl .bits).2 := by
  obtain ⟨_, _, _, _, _, _, looked⟩ := hasNewBits_examinesOnly W afl
  have virgin := ((hasNewBits_bytewise afl .bits).1 W).2.1
  refine ⟨by rw [looked], ?_, fun i zero => ?_⟩
  · unfold hasNewBits
    dsimp only
    split <;> rfl
  · refine (virgin i).trans ?_
    split
    · show afl.virginBits i &&& ~~~ afl.traceBits i = 0
      rw [zero]
      exact BitVec.zero_and
    · exact zero

theorem sameVariable_lookUpTrace (P : Platform) (afl : AflState) :
    SameVariable afl (lookUpTrace P afl) := by
  have classified : SameVariable afl (classifyTrace P afl) := ⟨rfl, rfl, fun _ zero => zero⟩
  exact classified.trans (sameVariable_hasNewBits P.wordSize (classifyTrace P afl))

/-- A first trace with its checksum is saved. -/
theorem sameVariable_saveFirst (afl : AflState) (q cksum : ℕ) :
    SameVariable afl
      (saveFirstTrace (afl.modifyEntry q fun e => { e with execCksum := cksum })) :=
  ⟨rfl, rfl, fun _ zero => zero⟩

/-- The traces that `has_new_bits` leaves alone. -/
theorem lookUpTrace_traces (P : Platform) (afl : AflState) :
    (lookUpTrace P afl).traceBits = classifyCounts P.wordSize afl.mapSize afl.traceBits ∧
      (lookUpTrace P afl).firstTrace = afl.firstTrace := by
  unfold lookUpTrace hasNewBits
  dsimp only
  split <;> exact ⟨rfl, rfl⟩

/-- A round that changes no variable byte and neither the first trace nor the checksum keeps the
invariant. -/
theorem MarksCompared.of_same {d : Calibration} (marks : MarksCompared P afl q input c)
    (same : SameVariable c.afl d.afl) (first : d.afl.firstTrace = c.afl.firstTrace)
    (cksum : (d.afl.queueBuf q).execCksum = (c.afl.queueBuf q).execCksum) :
    MarksCompared P afl q input d where
  mapSize := same.mapSize.trans marks.mapSize
  first known := by
    rw [cksum] at known
    rw [first]
    exact marks.first known
  marked i changed := by
    rw [same.varBytes] at changed
    exact (marks.marked i changed).of_same same

/-- A run of the target keeps the invariant, and leaves its trace in the map. -/
theorem MarksCompared.fuzzRunTarget (marks : MarksCompared P afl q input c) (outcome : RunOutcome)
    {d : Calibration} (ran : d.afl = fuzzRunTarget c.afl outcome) :
    MarksCompared P afl q input d := by
  refine marks.of_same ?_ ?_ ?_
  · rw [ran]
    exact sameVariable_fuzzRunTarget c.afl outcome
  · obtain ⟨_, _, _, same⟩ := fuzzRunTarget_eq c.afl outcome
    rw [ran, same]
    rfl
  · rw [ran]
    exact fuzzRunTarget_keeps ignoresCosts_execCksum c.afl outcome q

/-- **Examining the trace of a run keeps the invariant.** -/
theorem MarksCompared.examineTrace (marks : MarksCompared P afl q input c)
    (compared : Compared P afl q input
      (classifyCounts P.wordSize c.afl.mapSize c.afl.traceBits)) :
    MarksCompared P afl q input (examineTrace P q c) := by
  have looked := sameVariable_lookUpTrace P c.afl
  obtain ⟨trace, first⟩ := lookUpTrace_traces P c.afl
  have queue := lookUpTrace_queueBuf P c.afl
  rcases examineTrace_afl P q c with same | ⟨known, same⟩ | ⟨cksum, same⟩
  · refine marks.of_same ?_ ?_ ?_
    · rw [same]
      exact ⟨rfl, rfl, fun _ zero => zero⟩
    · rw [same]
      rfl
    · rw [same]
      rfl
  · obtain ⟨reference, was, agrees⟩ := marks.first known
    refine ⟨?_, fun _ => ⟨reference, was, ?_⟩, fun i changed => ?_⟩
    · rw [same]
      exact looked.mapSize.trans marks.mapSize
    · intro i inside
      rw [same]
      show (lookUpTrace P c.afl).firstTrace i = reference i
      rw [first]
      exact agrees i inside
    · rw [same] at changed ⊢
      by_cases unstable : i < (lookUpTrace P c.afl).mapSize ∧
          (lookUpTrace P c.afl).varBytes i = 0 ∧
          (lookUpTrace P c.afl).firstTrace i ≠ (lookUpTrace P c.afl).traceBits i
      · obtain ⟨inside, unset, varies⟩ := unstable
        have marking : (markVariable (lookUpTrace P c.afl)).varBytes i = 1 ∧
            (markVariable (lookUpTrace P c.afl)).virginBits i = 0 :=
          ⟨if_pos ⟨inside, unset, varies⟩, if_pos ⟨inside, unset, varies⟩⟩
        rw [looked.mapSize, marks.mapSize] at inside
        rw [looked.varBytes] at unset
        rw [first, trace, agrees i inside] at varies
        refine ⟨inside, ?_, marking.1, marking.2, reference, _, was, compared, varies⟩
        by_contra before
        rw [(marks.marked i fun still => before (still.symm.trans unset)).set] at unset
        exact absurd unset (by decide)
      · have still : (markVariable (lookUpTrace P c.afl)).varBytes i = c.afl.varBytes i := by
          rw [← looked.varBytes]
          exact if_neg unstable
        rw [still] at changed
        have marked := (marks.marked i changed).of_same looked
        refine ⟨marked.inside, marked.unset, still.trans (marks.marked i changed).set, ?_,
          marked.differ⟩
        exact (if_neg unstable).trans marked.cleared
  · have saved := looked.trans (sameVariable_saveFirst (lookUpTrace P c.afl) q cksum)
    refine ⟨?_, fun _ => ⟨_, compared, fun i inside => ?_⟩, fun i changed => ?_⟩
    · rw [same]
      exact saved.mapSize.trans marks.mapSize
    · have within : i < (lookUpTrace P c.afl).mapSize := by
        rwa [looked.mapSize, marks.mapSize]
      rw [same, ← trace]
      exact if_pos within
    · rw [same] at changed ⊢
      rw [saved.varBytes] at changed
      exact (marks.marked i changed).of_same saved

/-- One round keeps the invariant. -/
theorem marksCompared_round (k : ℕ)
    (marks : MarksCompared P afl q input (calibrationBefore P afl q input k)) :
    MarksCompared P afl q input (calibrationBefore P afl q input (k + 1)) := by
  have next : calibrationBefore P afl q input (k + 1) =
      calibrationRound P q input (calibrationBefore P afl q input k) k := by
    rw [calibrationBefore, List.range_succ, List.foldl_append]
    rfl
  rw [next]
  rcases calibrationRound_cases P q input (calibrationBefore P afl q input k) k with
    ⟨-, idle⟩ | ⟨going, below, ⟨fault, stopped⟩ | accepted⟩
  · rw [idle]
    exact marks
  · rw [stopped]
    exact marks.fuzzRunTarget (input.runs k) rfl
  · rw [accepted]
    refine (marks.fuzzRunTarget (input.runs k) rfl).examineTrace (.inr ⟨k, ⟨going, below⟩, ?_⟩)
    obtain ⟨_, _, _, ran⟩ := fuzzRunTarget_eq (calibrationBefore P afl q input k).afl (input.runs k)
    rw [ran]
    show classifyCounts P.wordSize (calibrationBefore P afl q input k).afl.mapSize _ = _
    rw [marks.mapSize]
    rfl

/-- Before the first round nothing is marked, and the first trace is that of the caller. -/
theorem marksCompared_start :
    MarksCompared P afl q input (calibrationBefore P afl q input 0) := by
  show MarksCompared P afl q input (startCalibration P afl q)
  have announced : ((announceCalibration afl q).queueBuf q).execCksum =
      if afl.cmplogMode then 0 else (afl.queueBuf q).execCksum := by
    rw [announceCalibration, AflState.modifyEntry_queueBuf_self]
  unfold startCalibration calibrationNewBits
  dsimp only
  split
  · rename_i known
    have saved : SameVariable afl (saveFirstTrace (announceCalibration afl q)) :=
      ⟨rfl, rfl, fun _ zero => zero⟩
    have same := saved.trans (sameVariable_hasNewBits P.wordSize _)
    refine ⟨same.mapSize, fun _ => ⟨afl.traceBits, .inl ?_, fun i inside => ?_⟩,
      fun i changed => absurd (congrFun same.varBytes i) changed⟩
    · rw [announced] at known
      cases mode : afl.cmplogMode with
      | false =>
          rw [mode] at known
          exact ⟨rfl, known, rfl⟩
      | true =>
          rw [mode] at known
          exact absurd rfl known
    · have first : (hasNewBits P.wordSize (saveFirstTrace (announceCalibration afl q))
          .bits).2.firstTrace = (saveFirstTrace (announceCalibration afl q)).firstTrace := by
        unfold hasNewBits
        dsimp only
        split <;> rfl
      show (hasNewBits P.wordSize (saveFirstTrace (announceCalibration afl q)) .bits).2.firstTrace i
        = _
      rw [first]
      exact if_pos inside
  · rename_i unknown
    exact ⟨rfl, fun known => absurd known unknown, fun i changed => absurd rfl changed⟩

/-! ## The whole call -/

theorem sameVariable_rates (rates : RatesOnly before after) : SameVariable before after := by
  obtain ⟨_, _, _, rfl⟩ := rates
  exact ⟨rfl, rfl, fun _ zero => zero⟩

theorem sameVariable_complete (P : Platform) (q : ℕ) (input : CalibrationInput) (firstRun : Bool)
    (c : Calibration) : SameVariable c.afl (completeCalibration P q input firstRun c).afl := by
  have recorded : SameVariable c.afl (recordStatistics c.afl q input c.stageMax) :=
    ⟨rfl, rfl, fun _ zero => zero⟩
  exact recorded.trans (sameVariable_rates (updateBitmapScore_ratesOnly _ _ _ _))

theorem sameVariable_close (q : ℕ) (c : Calibration) :
    SameVariable c.afl (closeCalibration q c) := by
  unfold closeCalibration
  dsimp only
  split
  · split <;> exact ⟨rfl, rfl, fun _ zero => zero⟩
  · split <;> exact ⟨rfl, rfl, fun _ zero => zero⟩

/-- After the loop no variable byte changes. -/
theorem sameVariable_afterLoop (P : Platform) (afl : AflState) (q : ℕ) (input : CalibrationInput) :
    SameVariable (calibrationLoop P afl q input).afl (calibrateCase P afl q input).2 := by
  unfold calibrateCase
  dsimp only
  refine .trans ?_ (sameVariable_close q _)
  split
  · exact .refl _
  · exact sameVariable_complete P q input _ _

/-- **A byte that a calibration marks was not marked before, is cleared in `virgin_bits`, and two
of the compared traces differ there.** -/
theorem calibrateCase_marks (P : Platform) (afl : AflState) (q : ℕ) (input : CalibrationInput)
    (changed : (calibrateCase P afl q input).2.varBytes i ≠ afl.varBytes i) :
    MarkedFrom (Compared P afl q input) afl (calibrateCase P afl q input).2 i := by
  have marks (k : ℕ) : MarksCompared P afl q input (calibrationBefore P afl q input k) := by
    induction k with
    | zero => exact marksCompared_start
    | succ k ih => exact marksCompared_round k ih
  have after := sameVariable_afterLoop P afl q input
  rw [after.varBytes] at changed
  exact ((marks calCyclesLong).marked i changed).of_same after

/-! ## The checksums of the other entries -/

/-- The entries other than `q` have the checksums that they had. -/
def SameCksums (q : ℕ) (before after : AflState) : Prop :=
  ∀ p, p ≠ q → (after.queueBuf p).execCksum = (before.queueBuf p).execCksum

theorem SameCksums.trans (first : SameCksums q before middle) (second : SameCksums q middle after) :
    SameCksums q before after :=
  fun p other => (second p other).trans (first p other)

theorem sameCksums_modifyEntry (afl : AflState) (q : ℕ) (change : QueueEntry → QueueEntry) :
    SameCksums q afl (afl.modifyEntry q change) :=
  fun p other => by rw [AflState.modifyEntry_queueBuf_of_ne _ _ _ other]

theorem sameCksums_round (c : Calibration) (k : ℕ) :
    SameCksums q c.afl (calibrationRound P q input c k).afl := by
  have ran : SameCksums q c.afl (fuzzRunTarget c.afl (input.runs k)) :=
    fun p _ => fuzzRunTarget_keeps ignoresCosts_execCksum c.afl (input.runs k) p
  rcases calibrationRound_cases P q input c k with
    ⟨-, idle⟩ | ⟨-, -, ⟨fault, stopped⟩ | accepted⟩
  · rw [idle]
    exact fun p _ => rfl
  · rw [stopped]
    exact ran
  · rw [accepted]
    refine ran.trans ?_
    generalize executed : ({ c with
      afl := fuzzRunTarget c.afl (input.runs k)
      fault := (input.runs k).fault } : Calibration) = e
    have same : e.afl = fuzzRunTarget c.afl (input.runs k) := by rw [← executed]
    rw [← same]
    have looked := lookUpTrace_queueBuf P e.afl
    rcases examineTrace_afl P q e with same | ⟨-, same⟩ | ⟨cksum, same⟩
    · rw [same]
      exact fun p _ => rfl
    · rw [same]
      intro p _
      show ((lookUpTrace P e.afl).queueBuf p).execCksum = _
      rw [looked]
    · rw [same]
      have stored := sameCksums_modifyEntry (lookUpTrace P e.afl) q
        fun e => { e with execCksum := cksum }
      intro p other
      refine (stored p other).trans ?_
      rw [looked]

theorem sameCksums_start (afl : AflState) : SameCksums q afl (startCalibration P afl q).afl := by
  have announced : SameCksums q afl (announceCalibration afl q) := sameCksums_modifyEntry afl q _
  unfold startCalibration calibrationNewBits
  dsimp only
  split
  · intro p other
    rw [hasNewBits_queueBuf]
    exact announced p other
  · exact announced

/-- Winning or losing an index changes no checksum. -/
theorem contend_execCksum (libm : Libm) (afl : AflState) (q p2 factor len i p : ℕ) :
    ((contend libm afl q p2 factor len i).queueBuf p).execCksum = (afl.queueBuf p).execCksum := by
  have insert (afl : AflState) :
      ((insertWinner afl q i len).queueBuf p).execCksum = (afl.queueBuf p).execCksum := by
    unfold insertWinner QueueEntry.won
    dsimp only
    exact AflState.modifyEntry_keeps afl q _ QueueEntry.execCksum rfl p
  unfold contend
  split
  · exact insert afl
  · split
    · rfl
    · split
      · rfl
      · exact (insert _).trans (AflState.modifyEntry_keeps afl _ _ QueueEntry.execCksum rfl p)

theorem sameCksums_updateBitmapScore (libm : Libm) (afl : AflState) (q : ℕ) (haveTrace : Bool) :
    SameCksums q afl (updateBitmapScore libm afl q haveTrace) := by
  unfold updateBitmapScore
  dsimp only
  split
  · exact fun p _ => rfl
  · split
    · refine foldl_invariant (P := SameCksums q afl) (fun p _ => rfl) fun i _ t same => ?_
      split
      · exact same.trans fun p _ => contend_execCksum _ _ _ _ _ _ _ p
      · exact same
    · exact fun p _ => rfl

/-- **A calibration leaves the checksums of the other entries alone.** -/
theorem sameCksums_calibrateCase (P : Platform) (afl : AflState) (q : ℕ)
    (input : CalibrationInput) : SameCksums q afl (calibrateCase P afl q input).2 := by
  have loop : SameCksums q afl (calibrationLoop P afl q input).afl :=
    foldl_invariant (P := fun c : Calibration => SameCksums q afl c.afl) (sameCksums_start afl)
      fun k _ c same => same.trans (sameCksums_round c k)
  have closes (c : Calibration) : SameCksums q c.afl (closeCalibration q c) := by
    have covered := sameCksums_modifyEntry c.afl q fun e => { e with hasNewCov := true }
    unfold closeCalibration
    dsimp only
    split <;> split <;> first | exact covered | exact fun p _ => rfl
  unfold calibrateCase
  dsimp only
  split
  · exact loop.trans (closes _)
  · refine (loop.trans ?_).trans (closes _)
    have recorded : SameCksums q (calibrationLoop P afl q input).afl
        (recordStatistics (calibrationLoop P afl q input).afl q input
          (calibrationLoop P afl q input).stageMax) := by
      intro p other
      unfold recordStatistics
      dsimp only
      rw [AflState.modifyEntry_queueBuf_of_ne _ _ _ other]
    exact recorded.trans (sameCksums_updateBitmapScore _ _ q true)

end GreenFuzz.AflFuzz
