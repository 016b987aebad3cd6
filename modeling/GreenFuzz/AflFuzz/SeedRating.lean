import GreenFuzz.AflFuzz.Duplicates
import GreenFuzz.AflFuzz.CullPicks
import GreenFuzz.AflFuzz.QueueCounters
import GreenFuzz.AflFuzz.Rescore

/-!
# How the dry run rates the seeds

Every run of a seed on a deterministic target leaves the same trace. A calibration that completes
lets the seed contend for the indices of that trace, and one that is aborted leaves the slots
alone. So after the dry run every index that a calibrated seed hits has an owner, owners hit what
they own, and each owner has its minimised trace (`SeedsRated.dryRunLoop`).
-/

set_option autoImplicit false

namespace GreenFuzz.AflFuzz

open Library

variable {own : ℕ → Buffer} {before middle after afl : AflState} {q i : ℕ}

/-! ## Steps that leave the owners alone -/

/-- The slots, what decides whether a cull acts, and the measured speeds are the same in both
states. -/
structure SameOwners (before after : AflState) : Prop extends SameSlots before after where
  items : after.queuedItems = before.queuedItems
  changed : after.scoreChanged = before.scoreChanged
  mode : after.nonInstrumentedMode = before.nonInstrumentedMode
  execUs : ∀ p, (after.queueBuf p).execUs = (before.queueBuf p).execUs

theorem SameOwners.refl (afl : AflState) : SameOwners afl afl :=
  ⟨SameSlots.refl afl, rfl, rfl, rfl, fun _ => rfl⟩

theorem SameOwners.trans (first : SameOwners before middle) (second : SameOwners middle after) :
    SameOwners before after where
  toSameSlots := first.toSameSlots.trans second.toSameSlots
  items := second.items.trans first.items
  changed := second.changed.trans first.changed
  mode := second.mode.trans first.mode
  execUs p := (second.execUs p).trans (first.execUs p)

theorem Drops.sameOwners (drops : Drops before after) : SameOwners before after :=
  ⟨drops.slots, drops.items, drops.changed, drops.mode, drops.execUs⟩

theorem sameOwners_modifyEntry (afl : AflState) (q : ℕ) (change : QueueEntry → QueueEntry)
    (tcRef : (change (afl.queueBuf q)).tcRef = (afl.queueBuf q).tcRef)
    (traceMini : (change (afl.queueBuf q)).traceMini = (afl.queueBuf q).traceMini)
    (execUs : (change (afl.queueBuf q)).execUs = (afl.queueBuf q).execUs) :
    SameOwners afl (afl.modifyEntry q change) :=
  ⟨⟨rfl, rfl, AflState.modifyEntry_keeps afl q change QueueEntry.tcRef tcRef,
    AflState.modifyEntry_keeps afl q change QueueEntry.traceMini traceMini⟩, rfl, rfl, rfl,
    AflState.modifyEntry_keeps afl q change QueueEntry.execUs execUs⟩

theorem sameOwners_fuzzRunTarget (afl : AflState) (outcome : RunOutcome) :
    SameOwners afl (fuzzRunTarget afl outcome) := by
  refine ⟨sameSlots_fuzzRunTarget afl outcome, ?_, ?_, ?_, ?_⟩
  · exact (quiet_fuzzRunTarget afl outcome).items
  · obtain ⟨_, _, _, ran⟩ := fuzzRunTarget_eq afl outcome
    rw [ran]
    rfl
  · obtain ⟨_, _, _, ran⟩ := fuzzRunTarget_eq afl outcome
    rw [ran]
    rfl
  · refine fuzzRunTarget_keeps ?_ afl outcome
    intro e resource value
    cases resource <;> rfl

theorem sameOwners_hasNewBits (W : WordSize) (afl : AflState) (map : VirginMap) :
    SameOwners afl (hasNewBits W afl map).2 := by
  unfold hasNewBits
  dsimp only
  cases map <;> split <;>
    exact ⟨⟨rfl, rfl, fun _ => rfl, fun _ => rfl⟩, rfl, rfl, rfl, fun _ => rfl⟩

section Calibration

variable (P : Platform) (input : CalibrationInput) (c : Calibration)

theorem sameOwners_examineTrace (q : ℕ) : SameOwners c.afl (examineTrace P q c).afl := by
  have classified : SameOwners c.afl (classifyTrace P c.afl) :=
    ⟨⟨rfl, rfl, fun _ => rfl, fun _ => rfl⟩, rfl, rfl, rfl, fun _ => rfl⟩
  have looked : SameOwners c.afl (lookUpTrace P c.afl) :=
    classified.trans (sameOwners_hasNewBits P.wordSize _ .bits)
  rcases examineTrace_afl P q c with same | ⟨-, same⟩ | ⟨cksum, same⟩
  · rw [same]
    exact classified
  · rw [same]
    exact ⟨⟨looked.mapSize, looked.topRated, looked.tcRef, looked.traceMini⟩, looked.items,
      looked.changed, looked.mode, looked.execUs⟩
  · have stored := looked.trans
      (sameOwners_modifyEntry _ q (fun e => { e with execCksum := cksum }) rfl rfl rfl)
    rw [same]
    exact ⟨⟨stored.mapSize, stored.topRated, stored.tcRef, stored.traceMini⟩, stored.items,
      stored.changed, stored.mode, stored.execUs⟩

theorem sameOwners_calibrationRound (q k : ℕ) :
    SameOwners c.afl (calibrationRound P q input c k).afl := by
  have ran := sameOwners_fuzzRunTarget c.afl (input.runs k)
  rcases calibrationRound_cases P q input c k with ⟨-, idle⟩ | ⟨-, -, ⟨fault, stopped⟩ | accepted⟩
  · rw [idle]
    exact SameOwners.refl _
  · rw [stopped]
    exact ran
  · rw [accepted]
    exact ran.trans (sameOwners_examineTrace P { c with
      afl := fuzzRunTarget c.afl (input.runs k)
      fault := (input.runs k).fault } q)

theorem sameOwners_startCalibration (afl : AflState) (q : ℕ) :
    SameOwners afl (startCalibration P afl q).afl := by
  have announced : SameOwners afl (announceCalibration afl q) :=
    sameOwners_modifyEntry afl q _ rfl rfl rfl
  unfold startCalibration calibrationNewBits
  dsimp only
  split
  · have saved : SameOwners (announceCalibration afl q)
        (saveFirstTrace (announceCalibration afl q)) :=
      ⟨⟨rfl, rfl, fun _ => rfl, fun _ => rfl⟩, rfl, rfl, rfl, fun _ => rfl⟩
    exact announced.trans (saved.trans (sameOwners_hasNewBits P.wordSize _ .bits))
  · exact announced

theorem sameOwners_calibrationLoop (afl : AflState) (q : ℕ) :
    SameOwners afl (calibrationLoop P afl q input).afl :=
  foldl_invariant (P := fun c : Calibration => SameOwners afl c.afl)
    (sameOwners_startCalibration P afl q)
    fun k _ c same => same.trans (sameOwners_calibrationRound P input c q k)

/-- The statistics of a calibration leave the slots alone, and only the entry itself is
measured. -/
theorem recordStatistics_owners (afl : AflState) (q stageMax : ℕ) :
    SameSlots afl (recordStatistics afl q input stageMax) ∧
      (recordStatistics afl q input stageMax).queuedItems = afl.queuedItems ∧
      (recordStatistics afl q input stageMax).scoreChanged = afl.scoreChanged ∧
      (recordStatistics afl q input stageMax).nonInstrumentedMode = afl.nonInstrumentedMode ∧
      (recordStatistics afl q input stageMax).traceBits = afl.traceBits ∧
      ((recordStatistics afl q input stageMax).queueBuf q).execUs ≠ 0 ∧
      ∀ p, p ≠ q → ((recordStatistics afl q input stageMax).queueBuf p).execUs =
        (afl.queueBuf p).execUs := by
  have field {α : Type} (f : QueueEntry → α)
      (ignores : ∀ (e : QueueEntry) speed size, f { e with
        execUs := speed, bitmapSize := size, handicap := input.handicap, calFailed := 0 } = f e)
      (p : ℕ) : f ((recordStatistics afl q input stageMax).queueBuf p) = f (afl.queueBuf p) := by
    unfold recordStatistics
    dsimp only
    exact AflState.modifyEntry_keeps _ _ _ f (ignores _ _ _) p
  refine ⟨⟨rfl, rfl, field QueueEntry.tcRef fun _ _ _ => rfl,
    field QueueEntry.traceMini fun _ _ _ => rfl⟩, rfl, rfl, rfl, rfl, ?_, fun p other => ?_⟩
  · unfold recordStatistics
    dsimp only
    rw [AflState.modifyEntry_queueBuf_self]
    have positive (n : ℕ) : (if n = 0 then 1 else n) ≠ 0 := by split <;> omega
    exact positive _
  · unfold recordStatistics
    dsimp only
    rw [AflState.modifyEntry_queueBuf_of_ne _ _ _ other]

theorem sameOwners_closeCalibration (q : ℕ) : SameOwners c.afl (closeCalibration q c) := by
  have covered := sameOwners_modifyEntry c.afl q (fun e => { e with hasNewCov := true }) rfl rfl rfl
  unfold closeCalibration
  dsimp only
  split <;> split
  · exact ⟨⟨rfl, rfl, covered.tcRef, covered.traceMini⟩, rfl, rfl, rfl, covered.execUs⟩
  · exact ⟨⟨rfl, rfl, fun _ => rfl, fun _ => rfl⟩, rfl, rfl, rfl, fun _ => rfl⟩
  · exact ⟨⟨rfl, rfl, covered.tcRef, covered.traceMini⟩, rfl, rfl, rfl, covered.execUs⟩
  · exact SameOwners.refl _

/-! ## The trace of a calibration -/

theorem fuzzRunTarget_trace (afl : AflState) (outcome : RunOutcome) :
    (fuzzRunTarget afl outcome).traceBits = outcome.trace ∧
      (fuzzRunTarget afl outcome).mapSize = afl.mapSize := by
  obtain ⟨_, _, _, ran⟩ := fuzzRunTarget_eq afl outcome
  rw [ran]
  exact ⟨rfl, rfl⟩

/-- Classification keeps which indices are hit. -/
theorem classifyCounts_ne_zero_iff (W : WordSize) (mapSize : ℕ) (trace : Buffer) (i : ℕ) :
    classifyCounts W mapSize trace i ≠ 0 ↔ trace i ≠ 0 := by
  rw [classifyCounts_apply]
  split
  · rw [ne_eq, countClassLookup8_eq_zero_iff]
  · exact Iff.rfl

theorem examineTrace_traceBits (q : ℕ) :
    (examineTrace P q c).afl.traceBits =
      classifyCounts P.wordSize c.afl.mapSize c.afl.traceBits := by
  have looked : (lookUpTrace P c.afl).traceBits =
      classifyCounts P.wordSize c.afl.mapSize c.afl.traceBits := by
    unfold lookUpTrace hasNewBits
    dsimp only
    split <;> rfl
  rcases examineTrace_afl P q c with same | ⟨-, same⟩ | ⟨cksum, same⟩
  · rw [same, classifyTrace]
  · rw [same, markVariable, looked]
  · rw [same, saveFirstTrace, AflState.modifyEntry, looked]

/-- After the first round of a calibration that was not aborted, `trace_bits` hits what the seed
hits. -/
theorem calibrationLoop_trace {own : Buffer} (steady : ∀ k, (input.runs k).trace = own)
    (afl : AflState) (q : ℕ) (complete : (calibrationLoop P afl q input).aborted = false) (i : ℕ) :
    (calibrationLoop P afl q input).afl.traceBits i ≠ 0 ↔ own i ≠ 0 := by
  have bounds := startCalibration_bounds P q afl
  have invariant : StageBounds (calibrationLoop P afl q input) ∧
      (0 < calCyclesLong → (calibrationLoop P afl q input).aborted = false →
        ∀ i, (calibrationLoop P afl q input).afl.traceBits i ≠ 0 ↔ own i ≠ 0) := by
    refine foldl_range_invariant (P := fun k (c : Calibration) => StageBounds c ∧
      (0 < k → c.aborted = false → ∀ i, c.afl.traceBits i ≠ 0 ↔ own i ≠ 0))
      ⟨bounds, fun none => absurd none (Nat.lt_irrefl 0)⟩ ?_
    rintro k - c ⟨stage, seen⟩
    refine ⟨(calibrationRound_bounds P q input c stage k).1, fun _ going => ?_⟩
    rcases calibrationRound_cases P q input c k with
      ⟨done, idle⟩ | ⟨-, -, ⟨fault, stopped⟩ | accepted⟩
    · rw [idle] at going ⊢
      rcases done with stopped | reached
      · rw [going] at stopped
        cases stopped
      · exact seen (stage.1.trans_le reached) going
    · rw [stopped] at going
      cases going
    · intro i
      rw [accepted, examineTrace_traceBits, classifyCounts_ne_zero_iff]
      show (fuzzRunTarget c.afl (input.runs k)).traceBits i ≠ 0 ↔ _
      rw [(fuzzRunTarget_trace c.afl (input.runs k)).1, steady]
  exact invariant.2 (by decide) complete i

end Calibration

/-! ## Scoring -/

/-- A slot that has an owner keeps one, and the score has changed once there is an owner. -/
structure OwnersGrow (before after : AflState) : Prop where
  owned : ∀ i, before.topRated i ≠ none → after.topRated i ≠ none
  changed : (∀ i p, before.topRated i = some p → before.scoreChanged = true) →
    ∀ i p, after.topRated i = some p → after.scoreChanged = true

theorem OwnersGrow.refl (afl : AflState) : OwnersGrow afl afl := ⟨fun _ => id, id⟩

theorem OwnersGrow.trans (first : OwnersGrow before middle) (second : OwnersGrow middle after) :
    OwnersGrow before after :=
  ⟨fun i owner => second.owned i (first.owned i owner), fun so => second.changed (first.changed so)⟩

theorem SameOwners.ownersGrow (same : SameOwners before after) : OwnersGrow before after := by
  refine ⟨fun i => ?_, fun so i p => ?_⟩
  · rw [same.topRated]
    exact id
  · rw [same.topRated, same.changed]
    exact so i p

/-- After a contest the slot has an owner. -/
theorem ownersGrow_contend (libm : Libm) (afl : AflState) (q p2 factor len i : ℕ) :
    OwnersGrow afl (contend libm afl q p2 factor len i) ∧
      (contend libm afl q p2 factor len i).topRated i ≠ none := by
  have grown (j : ℕ) (owner : afl.topRated j ≠ none) :
      (contend libm afl q p2 factor len i).topRated j ≠ none := by
    rcases contend_topRated libm afl q p2 factor len i with same | won
    · rwa [same]
    · rw [won, Function.update_apply]
      split
      · exact Option.some_ne_none q
      · exact owner
  refine ⟨⟨grown, fun so j p owner => ?_⟩, ?_⟩
  · by_cases wins : winsSlot libm afl p2 factor i = true
    · rw [contend_eq, if_pos wins]
      rfl
    · rw [contend_eq, if_neg wins] at owner ⊢
      exact so j p owner
  · rw [contend_eq]
    split
    · show Function.update (releaseOwner afl i).topRated i (some q) i ≠ none
      rw [Function.update_self]
      exact Option.some_ne_none q
    · rename_i loses
      unfold winsSlot at loses
      intro free
      rw [free] at loses
      exact loses rfl

/-- Scoring an enabled entry leaves no index of its trace without an owner. -/
theorem ownersGrow_updateBitmapScore (libm : Libm)
    (enabled : (afl.queueBuf q).disabled = false) :
    OwnersGrow afl (updateBitmapScore libm afl q true) ∧
      ∀ i < afl.mapSize, afl.traceBits i ≠ 0 →
        (updateBitmapScore libm afl q true).topRated i ≠ none := by
  unfold updateBitmapScore
  rw [if_neg (by rw [enabled]; decide), if_pos rfl]
  refine (foldl_range_invariant (P := fun k (t : AflState) => RatesOnly afl t ∧
      OwnersGrow afl t ∧ ∀ i < k, afl.traceBits i ≠ 0 → t.topRated i ≠ none)
    ⟨RatesOnly.refl afl, OwnersGrow.refl afl, fun _ none => absurd none (Nat.not_lt_zero _)⟩ ?_).2
  rintro i - t ⟨rates, grows, owned⟩
  have trace : t.traceBits = afl.traceBits := by
    obtain ⟨_, _, _, rfl⟩ := rates
    rfl
  split
  · have contest := ownersGrow_contend libm t q (fuzzP2 afl (afl.queueBuf q))
      (favFactor libm afl (afl.queueBuf q)) ((t.mapSize + 7) / 8) i
    refine ⟨rates.trans (contend_ratesOnly _ _ _ _ _ _ _), grows.trans contest.1, ?_⟩
    intro j below hit
    rcases Nat.lt_succ_iff_lt_or_eq.mp below with earlier | rfl
    · exact contest.1.owned j (owned j earlier hit)
    · exact contest.2
  · rename_i missed
    refine ⟨rates, grows, fun j below hit => ?_⟩
    rcases Nat.lt_succ_iff_lt_or_eq.mp below with earlier | rfl
    · exact owned j earlier hit
    · rw [trace] at missed
      exact absurd hit missed

/-- Only the scored entry becomes a new owner. -/
theorem updateBitmapScore_owner (libm : Libm) (afl : AflState) (q : ℕ) :
    ∀ i p, (updateBitmapScore libm afl q true).topRated i = some p →
      afl.topRated i = some p ∨ p = q := by
  unfold updateBitmapScore
  dsimp only
  split
  · exact fun _ _ => Or.inl
  · refine foldl_invariant (P := fun t : AflState => ∀ i p, t.topRated i = some p →
      afl.topRated i = some p ∨ p = q) (fun _ _ => Or.inl) fun j _ t so i p owner => ?_
    split at owner
    · rcases contend_topRated libm t q (fuzzP2 afl (afl.queueBuf q))
        (favFactor libm afl (afl.queueBuf q)) ((t.mapSize + 7) / 8) j with same | won
      · rw [same] at owner
        exact so i p owner
      · rw [won, Function.update_apply] at owner
        split at owner
        · exact Or.inr (Option.some.inj owner).symm
        · exact so i p owner
    · exact so i p owner

theorem updateBitmapScore_execUs (libm : Libm) (afl : AflState) (q p : ℕ) :
    ((updateBitmapScore libm afl q true).queueBuf p).execUs = (afl.queueBuf p).execUs := by
  unfold updateBitmapScore
  dsimp only
  split
  · rfl
  · refine foldl_invariant
      (P := fun t : AflState => (t.queueBuf p).execUs = (afl.queueBuf p).execUs) rfl ?_
    intro i _ t same
    split
    · obtain ⟨_, _, entry⟩ := sameButMini_contend libm t q (fuzzP2 afl (afl.queueBuf q))
        (favFactor libm afl (afl.queueBuf q)) ((t.mapSize + 7) / 8) i p
      rw [entry]
      exact same
    · exact same

/-! ## The invariant of the dry run -/

/-- A calibration that completes measures the entry, which gives `exec_us` a positive value. -/
def QueueEntry.calibrated (e : QueueEntry) : Prop := e.execUs ≠ 0

/-- Owners are calibrated seeds that hit what they own, each has its minimised trace, and every
index of a calibrated seed is owned. -/
structure SeedsRated (own : ℕ → Buffer) (afl : AflState) : Prop where
  instrumented : afl.nonInstrumentedMode = false
  aligned : 8 ∣ afl.mapSize
  rated : Rated own afl
  counted : Counted afl
  changed : ∀ i p, afl.topRated i = some p → afl.scoreChanged = true
  owners : ∀ i p, afl.topRated i = some p → (afl.queueBuf p).calibrated
  owned : ∀ p, (afl.queueBuf p).calibrated → ∀ i < afl.mapSize, own p i ≠ 0 →
    afl.topRated i ≠ none

theorem SameSlots.minisFreed (same : SameSlots before after)
    (items : after.queuedItems = before.queuedItems) : MinisFreed before after :=
  ⟨same.mapSize, same.topRated, items.ge, fun p => Or.inl (same.traceMini p)⟩

theorem SeedsRated.of_same (rated : SeedsRated own before) (same : SameOwners before after) :
    SeedsRated own after where
  instrumented := same.mode.trans rated.instrumented
  aligned := same.mapSize ▸ rated.aligned
  rated := rated.rated.of_freed (same.toSameSlots.minisFreed same.items)
  counted := rated.counted.of_same same.toSameSlots
  changed := same.ownersGrow.changed rated.changed
  owners i p owner := by
    rw [same.topRated] at owner
    rw [QueueEntry.calibrated, same.execUs]
    exact rated.owners i p owner
  owned p calibrated i inside hit := by
    rw [QueueEntry.calibrated, same.execUs] at calibrated
    rw [same.mapSize] at inside
    rw [same.topRated]
    exact rated.owned p calibrated i inside hit

/-- Owners have their minimised traces. -/
theorem SeedsRated.keepMini (rated : SeedsRated own afl) : OwnersKeepMini afl := by
  intro i _ q owner
  rw [Option.isSome_iff_ne_none]
  intro missing
  exact Finset.notMem_empty i
    ((rated.counted.traceMini q).mp missing ▸ rated.counted.owns (Option.mem_def.mp owner))

/-- Calibrating a seed, whose runs all leave its own trace, rates it or leaves the slots alone. -/
theorem SeedsRated.calibrateCase (rated : SeedsRated own afl) (P : Platform)
    {input : CalibrationInput} (steady : ∀ k, (input.runs k).trace = own q)
    (queued : q < afl.queuedItems) (enabled : (afl.queueBuf q).disabled = false) :
    SeedsRated own (calibrateCase P afl q input).2 := by
  have looped := sameOwners_calibrationLoop P input afl q
  have kept := keepsOthers_calibrationLoop P input afl q
  have ran := rated.of_same looped
  unfold AflFuzz.calibrateCase
  dsimp only
  cases aborted : (calibrationLoop P afl q input).aborted with
  | true =>
      rw [if_pos rfl]
      exact ran.of_same (sameOwners_closeCalibration _ q)
  | false =>
      rw [if_neg (by decide)]
      refine SeedsRated.of_same ?_ (sameOwners_closeCalibration _ q)
      have trace := calibrationLoop_trace P input steady afl q aborted
      set c := calibrationLoop P afl q input
      obtain ⟨slots, items, changed, mode, bits, measured, others⟩ :=
        recordStatistics_owners input c.afl q c.stageMax
      have flag : ((recordStatistics c.afl q input c.stageMax).queueBuf q).disabled = false := by
        have recorded := (keepsOthers_recordStatistics input c.afl q c.stageMax).marks q
        rw [(marks_eq_iff.mp (recorded.trans (kept.marks q))).2.2.1]
        exact enabled
      show SeedsRated own (updateBitmapScore P.libm (recordStatistics c.afl q input c.stageMax) q
        true)
      set scored := recordStatistics c.afl q input c.stageMax
      have isOwn : TraceIsOwn own scored q := by
        intro i _
        rw [bits]
        exact trace i
      obtain ⟨grows, owned⟩ := ownersGrow_updateBitmapScore P.libm flag
      have size : (updateBitmapScore P.libm scored q true).mapSize = scored.mapSize := by
        obtain ⟨_, _, _, same⟩ := updateBitmapScore_ratesOnly P.libm scored q true
        rw [same]
      have before : Rated own scored := ran.rated.of_freed (slots.minisFreed items)
      have mode' : (updateBitmapScore P.libm scored q true).nonInstrumentedMode = false := by
        obtain ⟨_, _, _, same⟩ := updateBitmapScore_ratesOnly P.libm scored q true
        rw [same]
        exact mode.trans ran.instrumented
      refine ⟨mode', ?_, before.updateBitmapScore isOwn ?_ true, ?_, ?_, ?_, ?_⟩
      · rw [size, slots.mapSize]
        exact ran.aligned
      · rw [items, looped.items]
        exact queued
      · obtain ⟨rounds, done⟩ := SlotCall.apply_eq P.libm scored (.score q)
        rw [show updateBitmapScore P.libm scored q true = (SlotCall.score q).apply P.libm scored
          from rfl, done]
        exact (ran.counted.of_same slots).midway (.score q) rounds
      · refine grows.changed fun i p owner => ?_
        rw [changed]
        rw [slots.topRated] at owner
        exact ran.changed i p owner
      · intro i p owner
        rw [QueueEntry.calibrated, updateBitmapScore_execUs]
        by_cases same : p = q
        · rw [same]
          exact measured
        · rw [others p same]
          rcases updateBitmapScore_owner P.libm scored q i p owner with old | new
          · rw [slots.topRated] at old
            exact ran.owners i p old
          · exact absurd new same
      · intro p calibrated i inside hit
        rw [size] at inside
        by_cases same : p = q
        · rw [same] at hit
          exact owned i inside ((isOwn i inside).mpr hit)
        · refine grows.owned i ?_
          rw [QueueEntry.calibrated, updateBitmapScore_execUs, others p same] at calibrated
          rw [slots.mapSize] at inside
          rw [slots.topRated]
          exact ran.owned p calibrated i inside hit

/-! ## The rounds of the dry run -/

section Rounds

variable {B : Build} {opts : DryRunOptions} {seed : SeedInput} {d e : DryRun}

theorem SeedsRated.calibrateSeed (rated : SeedsRated own afl)
    (steady : ∀ k, (seed.calibration.runs k).trace = own q) (queued : q < afl.queuedItems)
    (enabled : (afl.queueBuf q).disabled = false) :
    SeedsRated own (calibrateSeed B opts seed q afl).2 := by
  have spared : SeedsRated own (spareSeed opts q afl) ∧
      q < (spareSeed opts q afl).queuedItems ∧
      ((spareSeed opts q afl).queueBuf q).disabled = false := by
    unfold spareSeed
    split
    · exact ⟨rated.of_same (sameOwners_modifyEntry afl q _ rfl rfl rfl), queued, by simpa⟩
    · exact ⟨rated, queued, enabled⟩
  have calibrated := spared.1.calibrateCase B.platform steady spared.2.1 spared.2.2
  unfold AflFuzz.calibrateSeed
  dsimp only
  split
  · exact calibrated.of_same (sameOwners_modifyEntry _ q _ rfl rfl rfl)
  · exact calibrated

theorem sameOwners_crashingSeedIsNew (B : Build) (afl : AflState) :
    SameOwners afl (crashingSeedIsNew B afl).2 := by
  have traced (trace : Buffer) : SameOwners afl { afl with traceBits := trace } :=
    ⟨⟨rfl, rfl, fun _ => rfl, fun _ => rfl⟩, rfl, rfl, rfl, fun _ => rfl⟩
  unfold crashingSeedIsNew
  split
  · exact SameOwners.refl afl
  · unfold newToMap
    split
    · exact traced _
    · exact (traced _).trans (sameOwners_hasNewBits B.variant.wordSize _ .crash)

/-- What follows a calibration leaves the owners alone, also when it disables the seed. -/
theorem SeedOutcome.sameOwners {res : FsrvRunResult} {before after : AflState}
    (outcome : SeedOutcome B opts q res before after) : SameOwners before after := by
  have retired := (drops_retireEntry before q).sameOwners
  have looked := retired.trans (sameOwners_crashingSeedIsNew B (retireEntry before q))
  cases outcome with
  | kept => exact SameOwners.refl _
  | failed =>
      have failed := sameOwners_modifyEntry before q (fun e => { e with calFailed := calChances })
        rfl rfl rfl
      exact failed.trans ((drops_disableEntry _ q).trans (drops_retireEntry _ q)).sameOwners
  | timedOut => exact (drops_drop before q).sameOwners
  | knownCrash => exact looked
  | newCrash => exact looked.trans (drops_disableEntry _ q).sameOwners
  | crash =>
      have deepest : SameOwners (retireEntry before q) { retireEntry before q with
          maxDepth := deepestEnabled (retireEntry before q) } :=
        ⟨⟨rfl, rfl, fun _ => rfl, fun _ => rfl⟩, rfl, rfl, rfl, fun _ => rfl⟩
      exact (retired.trans deepest).trans (drops_disableEntry _ q).sameOwners

/-- One round. -/
theorem SeedsRated.dryRunEntry (rated : SeedsRated own d.s.afl)
    (steady : ∀ k, (seed.calibration.runs k).trace = own q) (queued : q < d.s.afl.queuedItems)
    (done : dryRunEntry B opts seed d q = .ok e) : SeedsRated own e.s.afl := by
  rcases dryRunEntry_cases done with skipped | ⟨enabled, stopped | ⟨-, outcome⟩⟩
  · rw [skipped]
    exact rated
  · rw [stopped]
    exact rated.calibrateSeed steady queued enabled
  · exact (rated.calibrateSeed steady queued enabled).of_same outcome.sameOwners

/-- **The dry run rates the seeds**: after all its rounds the calibrated seeds own what they hit,
or others do. -/
theorem SeedsRated.dryRunLoop {seeds : ℕ → SeedInput} {todo : List ℕ}
    (steady : ∀ q k, ((seeds q).calibration.runs k).trace = own q)
    (inside : ∀ q ∈ todo, q < d.s.afl.queuedItems) (rated : SeedsRated own d.s.afl)
    (done : dryRunLoop B opts seeds d todo = .ok e) :
    SeedsRated own e.s.afl ∧ e.s.afl.queuedItems = d.s.afl.queuedItems := by
  induction todo generalizing d with
  | nil =>
      cases done
      exact ⟨rated, rfl⟩
  | cons q rest ih =>
      obtain ⟨middle, round, loop⟩ := bind_eq_ok_iff.mp done
      have queued := inside q List.mem_cons_self
      have items := dryRunEntry_queuedItems queued round
      have after := rated.dryRunEntry (steady q) queued round
      split at loop
      · cases loop
        exact ⟨after, items⟩
      · rw [← items]
        refine ih (fun p member => ?_) after loop
        rw [items]
        exact inside p (List.mem_cons_of_mem q member)

end Rounds

end GreenFuzz.AflFuzz
