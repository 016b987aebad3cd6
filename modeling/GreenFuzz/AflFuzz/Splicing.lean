import GreenFuzz.AflFuzz.QueueCounters

/-!
# Partners for splicing

`ready_for_splicing_count` should count the entries of more than four bytes.
`add_to_queue` raises it, and both engines lower it after a trim that leaves at
most four bytes. The loops that draw a partner for splicing run while there is
none, so they rely on it: more than one such entry means one besides the current
entry.

A custom mutator may rewrite the file of an entry that was just added or, at the
start, of a seed. `run_afl_custom_queue_new_entry` then takes over the new length
and leaves the counter alone. **As long as no such file moves across the limit
of four bytes, the counter never exceeds the number of long entries, and every
loop that draws a partner has one** (`splicing_safe_of_reachable`). A seed of ten
bytes that becomes one of two bytes is still counted
(`no_partner_after_rewrite`).

The parts of `fuzz_one` are steps of their own, in any order, and so is
everything that writes none of these fields.
-/

set_option autoImplicit false

namespace GreenFuzz.AflFuzz

open Library

/-! ## Steps -/

/-- `run_afl_custom_queue_new_entry`: the size of the file if a custom mutator changed it. -/
def runAflCustomQueueNewEntry (afl : AflState) (q : ℕ) (size : Option ℕ) : AflState :=
  match size with
  | none => afl
  | some size => afl.modifyEntry q fun e => { e with len := u32 size }

/-- The custom mutators leave no empty file, and change a length only as they may. -/
def Rewrites (hooks : ℕ → ℕ → Prop) (len : ℕ) (size : Option ℕ) : Prop :=
  ∀ n, size = some n → n ≠ 0 ∧ hooks len (u32 n)

/-- Neither the counter nor the lengths changed, and the same entries were trimmed. -/
structure SameSplicing (before after : AflState) : Prop where
  items : after.queuedItems = before.queuedItems
  ready : after.readyForSplicingCount = before.readyForSplicingCount
  len : ∀ p, (after.queueBuf p).len = (before.queueBuf p).len
  trimDone : ∀ p, (after.queueBuf p).trimDone = (before.queueBuf p).trimDone

/-- What happens before the first entry is fuzzed: seeds are added, their files may be
rewritten, and they are calibrated. -/
inductive SeedStep (B : Build) (hooks : ℕ → ℕ → Prop) : AflState → AflState → Prop where
  | add {afl : AflState} (len : ℕ) (passedDet : Bool) (size : Option ℕ)
      (room : afl.queuedItems + 1 < 2 ^ 32) (rewrites : Rewrites hooks len size) :
      SeedStep B hooks afl
        (runAflCustomQueueNewEntry (addToQueue afl len passedDet) afl.queuedItems size)
  | pivot {afl : AflState} (q : ℕ) (queued : q < afl.queuedItems) (size : Option ℕ)
      (rewrites : Rewrites hooks (afl.queueBuf q).len size) :
      SeedStep B hooks afl (runAflCustomQueueNewEntry afl q size)
  | calibrate {afl : AflState} (q : ℕ) (input : CalibrationInput) :
      SeedStep B hooks afl (calibrateCase B.platform afl q input).2
  | other {afl after : AflState} (same : SameSplicing afl after) : SeedStep B hooks afl after

/-- Later entries are trimmed besides, in either engine, as long as the user does not stop the
fuzzer. -/
inductive SpliceStep (B : Build) (hooks : ℕ → ℕ → Prop) : AflState → AflState → Prop where
  | seed {afl after : AflState} (step : SeedStep B hooks afl after) : SpliceStep B hooks afl after
  | trim {afl after : AflState} (q : ℕ) (queued : q < afl.queuedItems) (input : FuzzOneInput)
      (done : trimOnce B afl q input = .ok (false, after)) : SpliceStep B hooks afl after

/-- The start of a session. -/
def seedSystem (B : Build) (hooks : ℕ → ℕ → Prop) : TransitionSystem AflState where
  init afl := afl.queuedItems = 0 ∧ afl.readyForSplicingCount = 0
  step := SeedStep B hooks

/-- A session, which may be resumed from `fastresume.bin`. -/
def spliceSystem (B : Build) (hooks : ℕ → ℕ → Prop) : TransitionSystem AflState where
  init afl := Reachable (seedSystem B hooks) afl ∨
    ∃ seeds file, Reachable (seedSystem B hooks) seeds ∧ fastResume B.libm seeds file = .ok afl
  step := SpliceStep B hooks

/-! ## The counter -/

/-- Long enough to be counted. -/
def IsLong (afl : AflState) (q : ℕ) : Prop := 4 < (afl.queueBuf q).len

/-- Long, and not trimmed yet. -/
def IsUntrimmed (afl : AflState) (q : ℕ) : Prop :=
  4 < (afl.queueBuf q).len ∧ (afl.queueBuf q).trimDone = false

instance (afl : AflState) : DecidablePred (IsLong afl) := fun q =>
  inferInstanceAs (Decidable (4 < (afl.queueBuf q).len))

instance (afl : AflState) : DecidablePred (IsUntrimmed afl) := fun q =>
  inferInstanceAs (Decidable (4 < (afl.queueBuf q).len ∧ _))

/-- The counter is at most the number of long entries, and whenever it exceeds one, every loop
that draws a partner can draw one. -/
def SplicingSafe (afl : AflState) : Prop :=
  afl.readyForSplicingCount ≤ Nat.count (IsLong afl) afl.queuedItems ∧
    (1 < afl.readyForSplicingCount → ∀ current,
      ∃ tid < afl.queuedItems, tid ≠ current ∧ 4 ≤ (afl.queueBuf tid).len)

/-- Before the first entry is fuzzed the counter is exact. -/
structure SeedsReady (afl : AflState) : Prop where
  bound : afl.queuedItems < 2 ^ 32
  ready : afl.readyForSplicingCount = Nat.count (IsLong afl) afl.queuedItems

/-- **The invariant of a session**: every long entry that was not trimmed yet is counted, and only
long entries are. -/
structure SpliceReady (afl : AflState) : Prop where
  bound : afl.queuedItems < 2 ^ 32
  untrimmed : Nat.count (IsUntrimmed afl) afl.queuedItems ≤ afl.readyForSplicingCount
  long : afl.readyForSplicingCount ≤ Nat.count (IsLong afl) afl.queuedItems

variable {afl before middle after : AflState} {q : ℕ}

theorem SeedsReady.spliceReady (ready : SeedsReady afl) : SpliceReady afl where
  bound := ready.bound
  untrimmed := ready.ready ▸ Nat.count_mono_left fun _ _ untrimmed => untrimmed.1
  long := Nat.le_of_eq ready.ready

/-- Two long entries are one besides the current entry. -/
theorem exists_ne_of_one_lt_count {p : ℕ → Prop} [DecidablePred p] {n : ℕ}
    (many : 1 < Nat.count p n) (current : ℕ) : ∃ tid < n, tid ≠ current ∧ p tid := by
  by_contra alone
  have only : ∀ tid < n, p tid → tid = current := fun tid inside has => by
    by_contra other
    exact alone ⟨tid, inside, other, has⟩
  obtain ⟨tid, inside, has⟩ := Nat.count_ne_iff_exists.mp (Nat.ne_of_gt (Nat.zero_lt_of_lt many))
  obtain rfl := only tid inside has
  have one := count_gain (p := fun _ => False) inside id has fun j below other =>
    ⟨fun has => other (only j below has), False.elim⟩
  rw [one, Nat.count_false] at many
  exact Nat.lt_irrefl _ many

theorem SpliceReady.safe (ready : SpliceReady afl) : SplicingSafe afl := by
  refine ⟨ready.long, fun many current => ?_⟩
  obtain ⟨tid, inside, other, long⟩ :=
    exists_ne_of_one_lt_count (Nat.lt_of_lt_of_le many ready.long) current
  exact ⟨tid, inside, other, Nat.le_of_lt long⟩

/-! ## What keeps the lengths -/

theorem SameSplicing.trans (first : SameSplicing before middle)
    (second : SameSplicing middle after) : SameSplicing before after where
  items := second.items.trans first.items
  ready := second.ready.trans first.ready
  len p := (second.len p).trans (first.len p)
  trimDone p := (second.trimDone p).trans (first.trimDone p)

theorem SameSplicing.isLong (same : SameSplicing before after) (p : ℕ) :
    IsLong after p ↔ IsLong before p := by
  rw [IsLong, same.len]
  exact Iff.rfl

theorem SameSplicing.isUntrimmed (same : SameSplicing before after) (p : ℕ) :
    IsUntrimmed after p ↔ IsUntrimmed before p := by
  rw [IsUntrimmed, same.len, same.trimDone]
  exact Iff.rfl

theorem SeedsReady.of_same (ready : SeedsReady before) (same : SameSplicing before after) :
    SeedsReady after where
  bound := same.items ▸ ready.bound
  ready := by
    rw [same.ready, ready.ready, same.items]
    exact count_congr_below fun p _ => (same.isLong p).symm

theorem SpliceReady.of_same (ready : SpliceReady before) (same : SameSplicing before after) :
    SpliceReady after where
  bound := same.items ▸ ready.bound
  untrimmed := by
    rw [same.ready, same.items, count_congr_below fun p _ => same.isUntrimmed p]
    exact ready.untrimmed
  long := by
    rw [same.ready, same.items, count_congr_below fun p _ => same.isLong p]
    exact ready.long

theorem ignoresCosts_len : IgnoresCosts QueueEntry.len := by
  intro e resource value
  cases resource <;> rfl

theorem ignoresCosts_trimDone : IgnoresCosts QueueEntry.trimDone := by
  intro e resource value
  cases resource <;> rfl

theorem ignoresStatistics_len : IgnoresStatistics QueueEntry.len := fun _ _ _ _ _ _ _ _ _ => rfl

theorem ignoresStatistics_trimDone : IgnoresStatistics QueueEntry.trimDone :=
  fun _ _ _ _ _ _ _ _ _ => rfl

theorem sameSplicing_fuzzRunTarget (afl : AflState) (outcome : RunOutcome) :
    SameSplicing afl (fuzzRunTarget afl outcome) := by
  refine ⟨?_, ?_, fuzzRunTarget_keeps ignoresCosts_len afl outcome,
    fuzzRunTarget_keeps ignoresCosts_trimDone afl outcome⟩
  · exact fuzzRunTarget_field (fun _ _ _ _ => rfl) afl outcome
  · exact fuzzRunTarget_field (fun _ _ _ _ => rfl) afl outcome

theorem sameSplicing_updateBitmapScore (libm : Libm) (afl : AflState) (q : ℕ) (haveTrace : Bool) :
    SameSplicing afl (updateBitmapScore libm afl q haveTrace) := by
  obtain ⟨_, _, _, rated⟩ := updateBitmapScore_ratesOnly libm afl q haveTrace
  refine ⟨?_, ?_, fun p => updateBitmapScore_keeps libm afl q haveTrace ignoresStatistics_len p,
    fun p => updateBitmapScore_keeps libm afl q haveTrace ignoresStatistics_trimDone p⟩
  · rw [rated]
  · rw [rated]

/-- A round of a calibration runs the target and looks at its trace. -/
theorem calibrationRound_len {α : Type*} {field : QueueEntry → α} (P : Platform)
    (input : CalibrationInput) (c : Calibration) (q stageCur : ℕ)
    (costs : IgnoresCosts field) (statistics : IgnoresStatistics field) (p : ℕ) :
    field ((calibrationRound P q input c stageCur).afl.queueBuf p) = field (c.afl.queueBuf p) := by
  have ran := fuzzRunTarget_keeps costs c.afl (input.runs stageCur) p
  simp only [calibrationRound]
  split
  · rfl
  · split
    · exact ran
    · split
      · exact ran
      · rw [examineTrace_keeps P q _ statistics p]
        exact ran

/-- Calibration keeps a field that neither runs of the target nor statistics write. -/
theorem calibrateCase_len {α : Type*} {field : QueueEntry → α} (P : Platform) (afl : AflState)
    (q : ℕ) (input : CalibrationInput) (costs : IgnoresCosts field)
    (statistics : IgnoresStatistics field) (p : ℕ) :
    field ((calibrateCase P afl q input).2.queueBuf p) = field (afl.queueBuf p) := by
  rw [calibrateCase_keeps P q input afl statistics]
  exact foldl_invariant
    (P := fun c : Calibration => field (c.afl.queueBuf p) = field (afl.queueBuf p))
    (startCalibration_keeps P q afl statistics p)
    fun stageCur _ c same =>
      (calibrationRound_len P input c q stageCur costs statistics p).trans same

theorem closeCalibration_counters (q : ℕ) (c : Calibration) :
    (closeCalibration q c).queuedItems = c.afl.queuedItems ∧
      (closeCalibration q c).readyForSplicingCount = c.afl.readyForSplicingCount := by
  simp only [closeCalibration]
  split <;> split <;> exact ⟨rfl, rfl⟩

theorem sameSplicing_calibrateCase (P : Platform) (afl : AflState) (q : ℕ)
    (input : CalibrationInput) : SameSplicing afl (calibrateCase P afl q input).2 := by
  obtain ⟨_, _, _, _, _, _, _, _, _, _, looped⟩ := calibrationLoop_runsOnly P q input afl
  have completed (firstRun : Bool) : (completeCalibration P q input firstRun
        (calibrationLoop P afl q input)).afl.queuedItems = afl.queuedItems ∧
      (completeCalibration P q input firstRun
        (calibrationLoop P afl q input)).afl.readyForSplicingCount = afl.readyForSplicingCount := by
    obtain ⟨_, _, _, rated⟩ := updateBitmapScore_ratesOnly P.libm
      (recordStatistics (calibrationLoop P afl q input).afl q input
        (calibrationLoop P afl q input).stageMax) q true
    simp only [completeCalibration, rated]
    exact ⟨by rw [recordStatistics, looped]; rfl, by rw [recordStatistics, looped]; rfl⟩
  have counters : (calibrateCase P afl q input).2.queuedItems = afl.queuedItems ∧
      (calibrateCase P afl q input).2.readyForSplicingCount = afl.readyForSplicingCount := by
    simp only [calibrateCase, closeCalibration_counters]
    split
    · rw [looped]
      exact ⟨rfl, rfl⟩
    · exact completed _
  exact ⟨counters.1, counters.2,
    calibrateCase_len P afl q input ignoresCosts_len ignoresStatistics_len,
    calibrateCase_len P afl q input ignoresCosts_trimDone ignoresStatistics_trimDone⟩

/-! ## Adding and rewriting -/

/-- A new length on the same side of the limit. -/
def SameSide (len len' : ℕ) : Prop := 4 < len ↔ 4 < len'

/-- Besides the new entry nothing changed. -/
theorem addToQueue_queueBuf (afl : AflState) (len : ℕ) (passedDet : Bool) (p : ℕ) :
    (addToQueue afl len passedDet).queueBuf p =
      if p = afl.queuedItems then (addToQueue afl len passedDet).queueBuf afl.queuedItems
      else afl.queueBuf p := by
  simp only [addToQueue]
  by_cases here : p = afl.queuedItems
  · rw [if_pos here, here]
  · rw [if_neg here, Function.update_of_ne here]

theorem addToQueue_new (afl : AflState) (len : ℕ) (passedDet : Bool) :
    ((addToQueue afl len passedDet).queueBuf afl.queuedItems).len = len ∧
      ((addToQueue afl len passedDet).queueBuf afl.queuedItems).trimDone = false := by
  simp only [addToQueue, Function.update_self]
  exact ⟨trivial, trivial⟩

/-- A rewrite within one side of the limit changes neither property of an entry. -/
theorem isLong_rewritten {size : Option ℕ} (rewrites : Rewrites SameSide (afl.queueBuf q).len size)
    (p : ℕ) : (IsLong (runAflCustomQueueNewEntry afl q size) p ↔ IsLong afl p) ∧
      (IsUntrimmed (runAflCustomQueueNewEntry afl q size) p ↔ IsUntrimmed afl p) := by
  cases size with
  | none => exact ⟨Iff.rfl, Iff.rfl⟩
  | some n =>
      have side := (rewrites n rfl).2
      by_cases here : p = q
      · subst here
        simp only [IsLong, IsUntrimmed, runAflCustomQueueNewEntry,
          AflState.modifyEntry_queueBuf_self]
        exact ⟨side.symm, and_congr_left' side.symm⟩
      · simp only [IsLong, IsUntrimmed, runAflCustomQueueNewEntry,
          AflState.modifyEntry_queueBuf_of_ne _ _ _ here]
        exact ⟨trivial, trivial⟩

theorem runAflCustomQueueNewEntry_counters (afl : AflState) (q : ℕ) (size : Option ℕ) :
    (runAflCustomQueueNewEntry afl q size).queuedItems = afl.queuedItems ∧
      (runAflCustomQueueNewEntry afl q size).readyForSplicingCount =
        afl.readyForSplicingCount := by
  cases size <;> exact ⟨rfl, rfl⟩

theorem SeedsReady.rewrite (ready : SeedsReady afl) {size : Option ℕ}
    (rewrites : Rewrites SameSide (afl.queueBuf q).len size) :
    SeedsReady (runAflCustomQueueNewEntry afl q size) := by
  obtain ⟨items, counter⟩ := runAflCustomQueueNewEntry_counters afl q size
  refine ⟨items ▸ ready.bound, ?_⟩
  rw [counter, items, ready.ready]
  exact count_congr_below fun p _ => (isLong_rewritten rewrites p).1.symm

theorem SpliceReady.rewrite (ready : SpliceReady afl) {size : Option ℕ}
    (rewrites : Rewrites SameSide (afl.queueBuf q).len size) :
    SpliceReady (runAflCustomQueueNewEntry afl q size) := by
  obtain ⟨items, counter⟩ := runAflCustomQueueNewEntry_counters afl q size
  refine ⟨items ▸ ready.bound, ?_, ?_⟩
  · rw [counter, items, count_congr_below fun p _ => (isLong_rewritten rewrites p).2]
    exact ready.untrimmed
  · rw [counter, items, count_congr_below fun p _ => (isLong_rewritten rewrites p).1]
    exact ready.long

/-- A new entry is counted when it is long. -/
theorem count_addToQueue (afl : AflState) (len : ℕ) (passedDet : Bool) :
    Nat.count (IsLong (addToQueue afl len passedDet)) (afl.queuedItems + 1) =
        Nat.count (IsLong afl) afl.queuedItems + (if 4 < len then 1 else 0) ∧
      Nat.count (IsUntrimmed (addToQueue afl len passedDet)) (afl.queuedItems + 1) =
        Nat.count (IsUntrimmed afl) afl.queuedItems + (if 4 < len then 1 else 0) := by
  obtain ⟨new, untrimmed⟩ := addToQueue_new afl len passedDet
  have old (p : ℕ) (inside : p < afl.queuedItems) :
      (addToQueue afl len passedDet).queueBuf p = afl.queueBuf p := by
    rw [addToQueue_queueBuf, if_neg (Nat.ne_of_lt inside)]
  constructor
  · rw [Nat.count_succ, count_congr_below (q := IsLong afl) fun p inside => by
      rw [IsLong, old p inside, IsLong]]
    simp only [IsLong, new]
  · rw [Nat.count_succ, count_congr_below (q := IsUntrimmed afl) fun p inside => by
      rw [IsUntrimmed, old p inside, IsUntrimmed]]
    simp only [IsUntrimmed, new, untrimmed, and_true]

theorem addToQueue_counters (afl : AflState) (len : ℕ) (passedDet : Bool) :
    (addToQueue afl len passedDet).queuedItems = afl.queuedItems + 1 ∧
      (addToQueue afl len passedDet).readyForSplicingCount =
        afl.readyForSplicingCount + (if 4 < len then 1 else 0) := by
  simp only [addToQueue]
  split <;> exact ⟨trivial, rfl⟩

theorem SeedsReady.add (ready : SeedsReady afl) (room : afl.queuedItems + 1 < 2 ^ 32) (len : ℕ)
    (passedDet : Bool) : SeedsReady (addToQueue afl len passedDet) := by
  obtain ⟨items, counter⟩ := addToQueue_counters afl len passedDet
  refine ⟨items ▸ room, ?_⟩
  rw [counter, items, (count_addToQueue afl len passedDet).1, ready.ready]

theorem SpliceReady.add (ready : SpliceReady afl) (room : afl.queuedItems + 1 < 2 ^ 32) (len : ℕ)
    (passedDet : Bool) : SpliceReady (addToQueue afl len passedDet) := by
  obtain ⟨items, counter⟩ := addToQueue_counters afl len passedDet
  obtain ⟨long, untrimmed⟩ := count_addToQueue afl len passedDet
  refine ⟨items ▸ room, ?_, ?_⟩
  · rw [counter, items, untrimmed]
    exact Nat.add_le_add_right ready.untrimmed _
  · rw [counter, items, long]
    exact Nat.add_le_add_right ready.long _

/-- The length of the new entry is the one the custom mutators are asked about. -/
theorem rewrites_added {size : Option ℕ} {len : ℕ} (passedDet : Bool)
    (rewrites : Rewrites SameSide len size) :
    Rewrites SameSide ((addToQueue afl len passedDet).queueBuf afl.queuedItems).len size := by
  rw [(addToQueue_new afl len passedDet).1]
  exact rewrites

theorem SeedsReady.step {B : Build} (ready : SeedsReady before)
    (step : SeedStep B SameSide before after) : SeedsReady after := by
  cases step with
  | add len passedDet size room rewrites =>
      exact (ready.add room len passedDet).rewrite (rewrites_added passedDet rewrites)
  | pivot q queued size rewrites => exact ready.rewrite rewrites
  | calibrate q input => exact ready.of_same (sameSplicing_calibrateCase B.platform _ q input)
  | other same => exact ready.of_same same

/-! ## Trimming -/

/-- Trimming gives one entry a new length. -/
theorem trimEntry_lengths (B : Build) (afl : AflState) (q : ℕ) (trim : TrimResult) :
    SameSplicing (afl.modifyEntry q fun e => { e with len := trim.len })
      (trimEntry B afl q trim) := by
  have ran : SameSplicing afl (trim.runs.foldl fuzzRunTarget afl) :=
    foldl_invariant (P := SameSplicing afl) ⟨rfl, rfl, fun _ => rfl, fun _ => rfl⟩
      fun outcome _ t same => same.trans (sameSplicing_fuzzRunTarget t outcome)
  have shortened : SameSplicing (afl.modifyEntry q fun e => { e with len := trim.len })
      ((trim.runs.foldl fuzzRunTarget afl).modifyEntry q fun e => { e with len := trim.len }) := by
    refine ⟨ran.items, ran.ready, fun p => ?_, fun p => ?_⟩
    · by_cases here : p = q
      · subst here
        simp only [AflState.modifyEntry_queueBuf_self]
      · simp only [AflState.modifyEntry_queueBuf_of_ne _ _ _ here]
        exact ran.len p
    · by_cases here : p = q
      · subst here
        simp only [AflState.modifyEntry_queueBuf_self]
        exact ran.trimDone p
      · simp only [AflState.modifyEntry_queueBuf_of_ne _ _ _ here]
        exact ran.trimDone p
  simp only [trimEntry]
  split
  · exact shortened
  · rename_i trace _
    have restored := sameSplicing_updateBitmapScore B.libm { (trim.runs.foldl fuzzRunTarget
      afl).modifyEntry q fun e => { e with len := trim.len } with traceBits := trace } q true
    exact shortened.trans ⟨restored.items, restored.ready, restored.len, restored.trimDone⟩

/-- What the trimming block leaves, when it does not abandon the entry. -/
theorem trimOnce_cases {B : Build} {input : FuzzOneInput}
    (done : trimOnce B before q input = .ok (false, after)) :
    after = before ∨
      (before.queueBuf q).trimDone = false ∧ (after.queueBuf q).trimDone = true ∧
        after.queuedItems = before.queuedItems ∧
        (∀ p, p ≠ q → (after.queueBuf p).len = (before.queueBuf p).len ∧
          (after.queueBuf p).trimDone = (before.queueBuf p).trimDone) ∧
        after.readyForSplicingCount =
          if (after.queueBuf q).len ≤ 4 ∧ 4 < (before.queueBuf q).len then
            u32Pred before.readyForSplicingCount
          else before.readyForSplicingCount := by
  have trimmed := trimEntry_lengths B before q input.trim
  simp only [trimOnce] at done
  split at done
  · cases done
    exact .inl rfl
  · rename_i trims
    rw [not_or, not_or] at trims
    split at done
    · cases done
    · split at done
      · cases done
      · cases done
        refine .inr ⟨by simpa using trims.2.1, ?_, trimmed.items, fun p other => ?_, ?_⟩
        · simp only [AflState.modifyEntry_queueBuf_self]
        · simp only [AflState.modifyEntry_queueBuf_of_ne _ _ _ other, trimmed.len, trimmed.trimDone]
          exact ⟨trivial, trivial⟩
        · simp only [AflState.modifyEntry_queueBuf_self, trimmed.ready]
          rfl

theorem SpliceReady.trim {B : Build} {input : FuzzOneInput} (ready : SpliceReady before)
    (queued : q < before.queuedItems) (done : trimOnce B before q input = .ok (false, after)) :
    SpliceReady after := by
  rcases trimOnce_cases done with rfl | ⟨fresh, trimmed, items, others, counter⟩
  · exact ready
  · have bound := ready.bound
    have least := ready.untrimmed
    have most := ready.long
    have few : Nat.count (IsLong before) before.queuedItems ≤ before.queuedItems := Nat.count_le _
    have settled : ¬ IsUntrimmed after q := fun untrimmed => by
      rw [IsUntrimmed, trimmed] at untrimmed
      exact Bool.noConfusion untrimmed.2
    have otherLong : ∀ p < before.queuedItems, p ≠ q → (IsLong before p ↔ IsLong after p) :=
      fun p _ other => by rw [IsLong, IsLong, (others p other).1]
    have otherUntrimmed : ∀ p < before.queuedItems, p ≠ q →
        (IsUntrimmed before p ↔ IsUntrimmed after p) := fun p _ other => by
      rw [IsUntrimmed, IsUntrimmed, (others p other).1, (others p other).2]
    by_cases long : 4 < (before.queueBuf q).len
    · -- the entry was counted, because it is long and was not trimmed
      have one := count_gain queued settled ⟨long, fresh⟩ otherUntrimmed
      by_cases still : 4 < (after.queueBuf q).len
      · rw [if_neg fun short => Nat.not_le.mpr still short.1] at counter
        have same := count_congr_below (p := IsLong before) (q := IsLong after)
          (n := before.queuedItems) fun p inside => by
            by_cases here : p = q
            · subst here
              exact ⟨fun _ => still, fun _ => long⟩
            · exact otherLong p inside here
        exact ⟨items ▸ bound, by rw [items]; omega, by rw [items]; omega⟩
      · have short := Nat.le_of_not_lt still
        rw [if_pos ⟨short, long⟩, u32Pred_eq_sub (by omega) (by omega)] at counter
        have lost := count_gain (p := IsLong after) (q := IsLong before) queued still long otherLong
        exact ⟨items ▸ bound, by rw [items]; omega, by rw [items]; omega⟩
    · rw [if_neg fun short => long short.2] at counter
      have same := count_congr_below (p := IsUntrimmed before) (q := IsUntrimmed after)
        (n := before.queuedItems) fun p inside => by
          by_cases here : p = q
          · subst here
            exact ⟨fun untrimmed => absurd untrimmed.1 long,
              fun untrimmed => absurd untrimmed settled⟩
          · exact otherUntrimmed p inside here
      have more : Nat.count (IsLong before) before.queuedItems ≤
          Nat.count (IsLong after) before.queuedItems := by
        refine Nat.count_mono_left fun p inside longBefore => ?_
        have other : p ≠ q := fun here => long (here ▸ longBefore)
        exact (otherLong p inside other).mp longBefore
      exact ⟨items ▸ bound, by rw [items]; omega, by rw [items]; omega⟩

/-- A step of a session keeps the counter right. -/
theorem SpliceReady.step {B : Build} (ready : SpliceReady before)
    (step : SpliceStep B SameSide before after) : SpliceReady after := by
  cases step with
  | trim q queued input done => exact ready.trim queued done
  | seed step =>
      cases step with
      | add len passedDet size room rewrites =>
          exact (ready.add room len passedDet).rewrite (rewrites_added passedDet rewrites)
      | pivot q queued size rewrites => exact ready.rewrite rewrites
      | calibrate q input => exact ready.of_same (sameSplicing_calibrateCase B.platform _ q input)
      | other same => exact ready.of_same same

/-! ## Resuming -/

/-- A record overwrites which entries were trimmed, and no length. -/
theorem SeedsReady.resumeRecord {libm : Libm} {state next : AflState × List Chunk} {i : ℕ}
    (ready : SeedsReady state.1) (done : resumeRecord libm state i = .ok next) :
    SeedsReady next.1 := by
  obtain ⟨⟨record, rest⟩, -, last⟩ := bind_eq_ok_iff.mp done
  cases last
  have kept (p : ℕ) : ((restoreEntry state.1 i record).queueBuf p).len =
      (state.1.queueBuf p).len :=
    AflState.modifyEntry_keeps state.1 i _ QueueEntry.len rfl p
  simp only [updateBitmapScore_no_trace, countRestored]
  refine ⟨ready.bound, ?_⟩
  refine Eq.trans ready.ready (count_congr_below fun p _ => ?_)
  exact ⟨fun long => by rw [IsLong, kept p]; exact long, fun long => by
    rw [IsLong, kept p] at long; exact long⟩

theorem SeedsReady.fastResume {libm : Libm} {file : List Chunk} (ready : SeedsReady before)
    (done : fastResume libm before file = .ok after) : SeedsReady after := by
  simp only [AflFuzz.fastResume] at done
  split at done
  · rename_i bits tmout crash var records
    obtain ⟨⟨restored, rest⟩, loop, last⟩ := bind_eq_ok_iff.mp done
    have read : SeedsReady restored :=
      foldlM_range_invariant (P := fun _ (state : AflState × List Chunk) => SeedsReady state.1)
        ⟨ready.bound, ready.ready⟩ (fun _ _ _ _ so round => so.resumeRecord round) loop
    dsimp only at last
    split at last
    · cases last
      exact ⟨read.bound, read.ready⟩
    · cases last
  · cases done

/-! ## Whole sessions -/

theorem seedsReady_of_reachable {B : Build} (run : Reachable (seedSystem B SameSide) afl) :
    SeedsReady afl := by
  refine run.invariant (fun start fresh => ?_) fun s t _ ready step => ready.step step
  obtain ⟨empty, zero⟩ := fresh
  refine ⟨by rw [empty]; decide, ?_⟩
  rw [zero, empty, Nat.count_zero]

/-- **In every session whose custom mutators keep the new lengths on their side of the limit, the
counter is at most the number of long entries, and every loop that draws a partner has one.** -/
theorem splicing_safe_of_reachable {B : Build} (run : Reachable (spliceSystem B SameSide) afl) :
    SplicingSafe afl := by
  have ready : SpliceReady afl := by
    refine run.invariant (fun start fresh => ?_) fun s t _ ready step => ready.step step
    rcases fresh with seeds | ⟨seeds, file, read, resumed⟩
    · exact (seedsReady_of_reachable seeds).spliceReady
    · exact ((seedsReady_of_reachable read).fastResume resumed).spliceReady
  exact ready.safe

/-- Two seeds of ten bytes. -/
theorem splicing_safe_two : SplicingSafe (addToQueue (addToQueue { mapSize := 8 } 10 false) 10
    false) := by
  have none_rewritten (len : ℕ) : Rewrites SameSide len none := fun n rewritten =>
    absurd rewritten.symm (Option.some_ne_none n)
  have first :
      Reachable (seedSystem trivialBuild SameSide) (addToQueue { mapSize := 8 } 10 false) :=
    .step (.init ⟨rfl, rfl⟩) (.add 10 false none (by decide) (none_rewritten 10))
  exact splicing_safe_of_reachable (.init (.inl (first.step
    (.add 10 false none (by decide) (none_rewritten 10)))))

/-- Two seeds of ten bytes, of which a custom mutator makes one of two bytes. -/
theorem no_partner_after_rewrite : ¬ ∀ (B : Build) (afl : AflState),
    Reachable (spliceSystem B fun _ _ => True) afl → SplicingSafe afl := by
  intro always
  have plain (len : ℕ) : Rewrites (fun _ _ => True) len none := fun n rewritten =>
    absurd rewritten.symm (Option.some_ne_none n)
  have two (len : ℕ) : Rewrites (fun _ _ => True) len (some 2) := fun n rewritten => by
    cases rewritten
    exact ⟨by decide, trivial⟩
  have first : Reachable (seedSystem trivialBuild fun _ _ => True)
      (addToQueue { mapSize := 8 } 10 false) :=
    .step (.init ⟨rfl, rfl⟩) (.add 10 false none (by decide) (plain 10))
  have second := first.step (.add 10 false none (by decide) (plain 10))
  have rewritten := second.step (.pivot 1 (by decide) (some 2) (two _))
  obtain ⟨tid, inside, other, long⟩ :=
    (always trivialBuild _ (.init (.inl rewritten))).2 (by decide) 0
  obtain rfl : tid = 1 := Nat.le_antisymm (Nat.le_of_lt_succ inside) (Nat.pos_of_ne_zero other)
  exact absurd long (by decide)

end GreenFuzz.AflFuzz
