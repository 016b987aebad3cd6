import GreenFuzz.AflFuzz.SeedCover

/-!
# The favored cover after a fast resume

The record of an entry has `tc_ref`, `favored` and the minimised trace. `top_rated` is in no
record: for every entry the record loop calls `update_bitmap_score` without a trace, which does
nothing. So after a resume no slot has an owner, while the entries keep their counts.

The favored marks survive until the first find that is calibrated. The cull that follows takes
its picks from `top_rated`, where only the find is. An index of the saved favored entries that
the find does not hit is then lost.

Resume keeps the counts and the cover exactly when there was nothing to keep
(`cover_kept_iff`): no saved entry owned a slot, and no favored entry hits anything that a cull
would look at.
-/

set_option autoImplicit false

namespace GreenFuzz.AflFuzz

open Library

variable {own : ℕ → Buffer} {s start afl : AflState} {P : Platform} {q i : ℕ}

/-! ## What a resumed session has -/

/-- The rounds of the record loop leave the session alone. -/
theorem restoreAll_frame (saved : ℕ → QueueEntry) (count : ℕ) (afl : AflState) :
    (restoreAll saved count afl).stopSoon = afl.stopSoon ∧
      (restoreAll saved count afl).nonInstrumentedMode = afl.nonInstrumentedMode ∧
      (restoreAll saved count afl).realMapSize = afl.realMapSize := by
  refine foldl_invariant (P := fun t : AflState => t.stopSoon = afl.stopSoon ∧
    t.nonInstrumentedMode = afl.nonInstrumentedMode ∧ t.realMapSize = afl.realMapSize)
    ⟨rfl, rfl, rfl⟩ ?_
  intro i _ t same
  obtain ⟨_, _, _, _, _, _, _, round⟩ := restoreRecord_eq saved t i
  rw [round]
  exact same

/-- The new session when its record loop is about to start: the test cases are read, nothing is
scored, and the map is the one of the saved session. -/
structure ResumesOn (s start : AflState) : Prop where
  sameMap : start.mapSize = s.mapSize
  aligned : 8 ∣ start.mapSize
  mapped : 0 < start.realMapSize
  running : start.stopSoon = false
  free : ∀ i, start.topRated i = none

/-- What the resumed session has of the saved one. -/
structure Resumed (s start r : AflState) : Prop where
  sameItems : start.queuedItems = s.queuedItems
  items : r.queuedItems = s.queuedItems
  mapSize : r.mapSize = start.mapSize
  topRated : r.topRated = start.topRated
  stopSoon : r.stopSoon = start.stopSoon
  mode : r.nonInstrumentedMode = start.nonInstrumentedMode
  realMapSize : r.realMapSize = start.realMapSize
  tcRef : ∀ q < s.queuedItems, (r.queueBuf q).tcRef = (s.queueBuf q).tcRef
  favored : ∀ q < s.queuedItems, (r.queueBuf q).favored = (s.queueBuf q).favored

theorem resumed_of_fastResume {libm : Libm} {r : AflState}
    (read : fastResume libm start (writeFastresume s) = .ok r) : Resumed s start r := by
  rw [fastResume_writeFastresume] at read
  split at read
  · rename_i same
    cases read
    obtain ⟨items, mapSize, topRated⟩ := resumed_frame s start
    obtain ⟨stopSoon, mode, realMapSize⟩ := restoreAll_frame s.queueBuf start.queuedItems
      { start with
        virginBits := s.virginBits
        virginTmout := s.virginTmout
        virginCrash := s.virginCrash
        varBytes := s.varBytes }
    refine ⟨same, items.trans same, mapSize, topRated, stopSoon, mode, realMapSize,
      fun q queued => ?_, fun q queued => ?_⟩
    · rw [resumed_queueBuf s start (same ▸ queued)]
      rfl
    · rw [resumed_queueBuf s start (same ▸ queued)]
      rfl
  · split at read <;> cases read

/-! ## New finds -/

/-- A new find is queued and calibrated. All its runs leave one trace. -/
inductive FindStep (P : Platform) (trace : ℕ → Buffer) (before : AflState) : AflState → Prop where
  | find (len : ℕ) (passedDet : Bool) (input : CalibrationInput)
      (steady : ∀ k, (input.runs k).trace = trace before.queuedItems) :
      FindStep P trace before
        (calibrateCase P (addToQueue before len passedDet) before.queuedItems input).2

/-- The sequences of finds of a session. -/
def findSystem (P : Platform) (trace : ℕ → Buffer) (start : AflState) :
    TransitionSystem AflState where
  init := fun afl => afl = start
  step := FindStep P trace

/-- The traces of the first `count` entries, and of those found later. -/
def thenFound (count : ℕ) (own found : ℕ → Buffer) (q : ℕ) : Buffer :=
  if q < count then own q else found q

theorem keepsBooks_findStep {trace : ℕ → Buffer} {before after : AflState}
    (step : FindStep P trace before after) : KeepsBooks before after := by
  cases step with
  | find len passedDet input steady =>
      have added := grows_addToQueue before len passedDet
      refine added.toKeepsBooks.trans (keepsOthers_calibrateCase P input ?_).keepsBooks
      exact Nat.lt_succ_self before.queuedItems

/-- A calibration that completes gives every index of the trace an owner, and the entry is the
only new one. -/
theorem calibrateCase_rates {input : CalibrationInput} {trace : Buffer}
    (steady : ∀ k, (input.runs k).trace = trace) (enabled : (afl.queueBuf q).disabled = false)
    (complete : (calibrationLoop P afl q input).aborted = false) :
    OwnersGrow afl (calibrateCase P afl q input).2 ∧
      (∀ i < afl.mapSize, trace i ≠ 0 → (calibrateCase P afl q input).2.topRated i ≠ none) ∧
      ∀ i p, (calibrateCase P afl q input).2.topRated i = some p →
        afl.topRated i = some p ∨ p = q := by
  have looped := sameOwners_calibrationLoop P input afl q
  have kept := keepsOthers_calibrationLoop P input afl q
  have bits := calibrationLoop_trace P input steady afl q complete
  unfold calibrateCase
  dsimp only
  rw [complete, if_neg (by decide)]
  set c := calibrationLoop P afl q input
  obtain ⟨slots, -, changed, -, recorded, -, -⟩ :=
    recordStatistics_owners input c.afl q c.stageMax
  have flag : ((recordStatistics c.afl q input c.stageMax).queueBuf q).disabled = false := by
    have marks := (keepsOthers_recordStatistics input c.afl q c.stageMax).marks q
    rw [(marks_eq_iff.mp (marks.trans (kept.marks q))).2.2.1]
    exact enabled
  obtain ⟨grows, owned⟩ := ownersGrow_updateBitmapScore P.libm flag
  have closed := sameOwners_closeCalibration
    (completeCalibration P q input ((afl.queueBuf q).execCksum == 0) c) q
  have scored : OwnersGrow afl (updateBitmapScore P.libm
      (recordStatistics c.afl q input c.stageMax) q true) := by
    refine (looped.ownersGrow.trans ⟨fun i => ?_, fun so i p => ?_⟩).trans grows
    · rw [slots.topRated]
      exact id
    · rw [slots.topRated, changed]
      exact so i p
  refine ⟨scored.trans closed.ownersGrow, fun i inside hit => ?_, fun i p owner => ?_⟩
  · refine closed.ownersGrow.owned i (owned i ?_ ?_)
    · rw [slots.mapSize, looped.mapSize]
      exact inside
    · rw [recorded]
      exact (bits i).mpr hit
  · rw [closed.topRated] at owner
    rcases updateBitmapScore_owner P.libm _ q i p owner with old | new
    · rw [slots.topRated, looped.topRated] at old
      exact Or.inl old
    · exact Or.inr new

/-- Calibration does not change the mode or the size of the map. -/
theorem calibrateCase_frame (P : Platform) (afl : AflState) (q : ℕ) (input : CalibrationInput) :
    (calibrateCase P afl q input).2.nonInstrumentedMode = afl.nonInstrumentedMode ∧
      (calibrateCase P afl q input).2.mapSize = afl.mapSize := by
  have looped := sameOwners_calibrationLoop P input afl q
  unfold calibrateCase
  dsimp only
  set c := calibrationLoop P afl q input
  split
  · have closed := sameOwners_closeCalibration c q
    exact ⟨closed.mode.trans looped.mode, closed.mapSize.trans looped.mapSize⟩
  · have closed := sameOwners_closeCalibration
      (completeCalibration P q input ((afl.queueBuf q).execCksum == 0) c) q
    obtain ⟨slots, -, -, mode, -⟩ := recordStatistics_owners input c.afl q c.stageMax
    obtain ⟨_, _, _, rated⟩ := updateBitmapScore_ratesOnly P.libm
      (recordStatistics c.afl q input c.stageMax) q true
    rw [closed.mode, closed.mapSize]
    show (updateBitmapScore P.libm (recordStatistics c.afl q input c.stageMax) q
        true).nonInstrumentedMode = _ ∧
      (updateBitmapScore P.libm (recordStatistics c.afl q input c.stageMax) q true).mapSize = _
    rw [rated]
    exact ⟨mode.trans looped.mode, slots.mapSize.trans looped.mapSize⟩

/-! ## What a cull favors -/

/-- After a cull that acts, every favored entry of the queue owns a slot. -/
theorem owner_of_favored_cullQueue (acts : cullReturnsEarly afl = false) {p : ℕ}
    (queued : p < afl.queuedItems) (liked : ((cullQueue afl).queueBuf p).favored = true) :
    ∃ i, afl.topRated i = some p := by
  have loop : ((List.range afl.mapSize).foldl cullIndex (cullReset afl)).topRated = afl.topRated ∧
      ((((List.range afl.mapSize).foldl cullIndex (cullReset afl)).queueBuf p).favored = true →
        ∃ i, afl.topRated i = some p) := by
    refine foldl_invariant (P := fun t : AflState => t.topRated = afl.topRated ∧
      ((t.queueBuf p).favored = true → ∃ i, afl.topRated i = some p)) ⟨rfl, fun marked => ?_⟩ ?_
    · rw [cullReset_queueBuf] at marked
      simp [queued] at marked
    · rintro i - t ⟨owners, so⟩
      unfold cullIndex
      split
      · exact ⟨owners, so⟩
      · rename_i top owner
        split
        · split
          · exact ⟨owners, so⟩
          · obtain ⟨-, frame, -, favored⟩ := markFavored_frame { t with
              mapTmpBuf := removeBits (t.mapSize / 8) t.mapTmpBuf _ } top
            refine ⟨frame.trans owners, fun marked => ?_⟩
            rcases (favored p).mp marked with old | ⟨rfl, -⟩
            · exact so old
            · exact ⟨i, owners ▸ owner⟩
        · exact ⟨owners, so⟩
  refine loop.2 ?_
  rw [cullQueue, if_neg (by simp [acts])] at liked
  rw [← foldl_cullMark_favored (List.range
    ((List.range afl.mapSize).foldl cullIndex (cullReset afl)).queuedItems)]
  exact liked

/-! ## When the cover is kept -/

/-- What a resume is to keep: `tc_ref` counts the owned slots, and after later finds and a cull
every index that a favored entry of the saved session hits is hit by a favored entry. -/
structure CoverKept (P : Platform) (own : ℕ → Buffer) (s r : AflState) : Prop where
  counts : ∀ q < r.queuedItems, (r.queueBuf q).tcRef = (ownedSlots r q).card
  covers : ∀ found afl, Reachable (findSystem P (thenFound s.queuedItems own found) r) afl →
    ∀ q < s.queuedItems, (s.queueBuf q).favored = true → ∀ i < s.mapSize, own q i ≠ 0 →
      ∃ p < afl.queuedItems, ((cullQueue afl).queueBuf p).favored = true ∧
        thenFound s.queuedItems own found p i ≠ 0

/-- The saved session had nothing to keep: no entry owned a slot, and no favored entry hits an
index unless the new session does not cull. -/
structure NothingToKeep (own : ℕ → Buffer) (s start : AflState) : Prop where
  unrated : ∀ q < s.queuedItems, (s.queueBuf q).tcRef = 0
  silent : start.nonInstrumentedMode = true ∨ ∀ q < s.queuedItems,
    (s.queueBuf q).favored = true → ∀ i < s.mapSize, own q i = 0

variable {r : AflState}

/-- One find of a single index, and the cull after it. -/
theorem favored_after_find (P : Platform) (own : ℕ → Buffer) (session : ResumesOn s start)
    (restored : Resumed s start r) (instrumented : start.nonInstrumentedMode = false) {j : ℕ}
    (first : j < 4) (inside : j < start.mapSize) :
    ∃ afl, Reachable (findSystem P (thenFound s.queuedItems own
        fun _ k => if k = j then 1 else 0) r) afl ∧
      ∀ p < afl.queuedItems, ((cullQueue afl).queueBuf p).favored = true → p = s.queuedItems := by
  set single : Buffer := fun k => if k = j then 1 else 0
  set input : CalibrationInput :=
    { runs := fun _ => { trace := single, fault := r.crashMode } }
  have latest : thenFound s.queuedItems own (fun _ => single) r.queuedItems = single := by
    rw [restored.items]
    exact if_neg (Nat.lt_irrefl _)
  have taken : FindStep P (thenFound s.queuedItems own fun _ => single) r _ :=
    .find 1 false input fun _ => latest.symm
  refine ⟨_, .step (.init rfl) taken, fun p queued liked => ?_⟩
  have enabled : ((addToQueue r 1 false).queueBuf r.queuedItems).disabled = false := by
    show (Function.update r.queueBuf r.queuedItems _ r.queuedItems).disabled = false
    rw [Function.update_self]
  have mapped : 0 < r.realMapSize := restored.realMapSize ▸ session.mapped
  have complete : (calibrationLoop P (addToQueue r 1 false) r.queuedItems input).aborted = false :=
    calibrationLoop_completes P r.queuedItems input _ (restored.stopSoon.trans session.running)
      (fun _ => rfl) (fun _ => rfl)
      fun _ => countBytes_ne_zero mapped first (by simp [input, single])
  have steady : ∀ k, (input.runs k).trace = single := fun _ => rfl
  obtain ⟨grows, owned, owners⟩ := calibrateCase_rates steady enabled complete
  obtain ⟨mode, -⟩ := calibrateCase_frame P (addToQueue r 1 false) r.queuedItems input
  have fresh (i p : ℕ) : (addToQueue r 1 false).topRated i ≠ some p := by
    show r.topRated i ≠ some p
    rw [restored.topRated, session.free]
    nofun
  have changed : (calibrateCase P (addToQueue r 1 false) r.queuedItems input).2.scoreChanged =
      true := by
    obtain ⟨p, owner⟩ := Option.ne_none_iff_exists'.mp
      (owned j (restored.mapSize ▸ inside) (by simp [single]))
    exact grows.changed (fun i p owner => absurd owner (fresh i p)) j p owner
  have acts : cullReturnsEarly
      (calibrateCase P (addToQueue r 1 false) r.queuedItems input).2 = false := by
    have plain : r.nonInstrumentedMode = false := restored.mode.trans instrumented
    rw [cullReturnsEarly, changed, mode]
    exact plain
  obtain ⟨i, owner⟩ := owner_of_favored_cullQueue acts queued liked
  rcases owners i p owner with old | new
  · exact absurd old (fresh i p)
  · exact new.trans restored.items

/-- Finds keep the favored marks of the entries. -/
theorem favored_of_reachable {trace : ℕ → Buffer} (run : Reachable (findSystem P trace r) afl) :
    KeepsBooks r afl ∧ afl.nonInstrumentedMode = r.nonInstrumentedMode := by
  refine run.invariant (P := fun t => KeepsBooks r t ∧
    t.nonInstrumentedMode = r.nonInstrumentedMode) ?_ ?_
  · rintro _ rfl
    exact ⟨(Grows.refl _).toKeepsBooks, rfl⟩
  · rintro t _ - ⟨kept, mode⟩ step
    refine ⟨kept.trans (keepsBooks_findStep step), ?_⟩
    cases step with
    | find len passedDet input steady => exact (calibrateCase_frame _ _ _ _).1.trans mode

/-- **A fast resume keeps the favored cover exactly when there was nothing to keep.** -/
theorem cover_kept_iff (P : Platform) (own : ℕ → Buffer) (s start r : AflState)
    (session : ResumesOn s start) (read : fastResume P.libm start (writeFastresume s) = .ok r) :
    CoverKept P own s r ↔ NothingToKeep own s start := by
  have restored := resumed_of_fastResume read
  have unowned (q : ℕ) : ownedSlots r q = ∅ := by
    ext i
    simp [ownedSlots, restored.topRated, session.free]
  constructor
  · intro kept
    refine ⟨fun q queued => ?_, ?_⟩
    · rw [← restored.tcRef q queued, kept.counts q (restored.items ▸ queued), unowned]
      rfl
    · cases mode : start.nonInstrumentedMode with
      | true => exact Or.inl rfl
      | false =>
          refine Or.inr fun q queued liked i inside => ?_
          by_contra hit
          have size : 8 ≤ start.mapSize :=
            Nat.le_of_dvd (session.sameMap ▸ Nat.zero_lt_of_lt inside) session.aligned
          obtain ⟨j, first, other⟩ : ∃ j < 4, i ≠ j := by
            by_cases zero : i = 0
            · exact ⟨1, by decide, by omega⟩
            · exact ⟨0, by decide, zero⟩
          obtain ⟨afl, run, only⟩ :=
            favored_after_find P own session restored mode first (by omega)
          obtain ⟨p, inQueue, favored, also⟩ := kept.covers _ afl run q queued liked i inside hit
          rw [only p inQueue favored, thenFound, if_neg (Nat.lt_irrefl _), if_neg other] at also
          exact also rfl
  · intro nothing
    refine ⟨fun q queued => ?_, fun found afl run q queued liked i inside hit => ?_⟩
    · rw [restored.items] at queued
      rw [restored.tcRef q queued, nothing.unrated q queued, unowned]
      rfl
    · obtain ⟨kept, mode⟩ := favored_of_reachable run
      rcases nothing.silent with plain | silent
      · have idle : cullQueue afl = afl := by
          rw [cullQueue, if_pos]
          rw [cullReturnsEarly, mode, restored.mode, plain, Bool.or_true]
        have early : q < r.queuedItems := restored.items ▸ queued
        refine ⟨q, early.trans_le kept.items, ?_, ?_⟩
        · rw [idle, (marks_eq_iff.mp (kept.old q early)).2.2.2, restored.favored q queued]
          exact liked
        · rw [thenFound, if_pos queued]
          exact hit
      · exact absurd (silent q queued liked i inside) hit

/-! ### One rated entry -/

/-- A session that has read one test case. -/
def oneRead : AflState := addToQueue { mapSize := 8, realMapSize := 8 } 1 false

/-- The entry was scored on a trace that hits index 0, and is favored. -/
def oneRated : AflState :=
  cullQueue (updateBitmapScore Libm.identity { oneRead with traceBits := hitsFirst } 0 true)

theorem oneRead_resumes : ResumesOn oneRead oneRead ∧ ResumesOn oneRated oneRead :=
  ⟨⟨rfl, ⟨1, rfl⟩, by decide, rfl, fun _ => rfl⟩, ⟨rfl, ⟨1, rfl⟩, by decide, rfl, fun _ => rfl⟩⟩

/-- A session that scored nothing has nothing to keep. -/
theorem cover_kept_unrated :
    ∃ r, fastResume trivialBuild.platform.libm oneRead (writeFastresume oneRead) = .ok r ∧
      CoverKept trivialBuild.platform (fun _ => hitsFirst) oneRead r := by
  refine ⟨_, rfl, (cover_kept_iff trivialBuild.platform (fun _ => hitsFirst) oneRead oneRead _
    oneRead_resumes.1 rfl).mpr ⟨?_, Or.inr ?_⟩⟩
  · decide +kernel
  · intro q queued liked
    obtain rfl : q = 0 := Nat.lt_one_iff.mp queued
    exact absurd liked (by decide)

def hitsSecond : Buffer := fun i => if i = 1 then 1 else 0

/-- The resumed session, after a find that hits index 1. -/
def secondFound : AflState :=
  (calibrateCase trivialBuild.platform (addToQueue (resumed oneRated oneRead) 1 false) 1
    { runs := fun _ => { trace := hitsSecond } }).2

/-- The resumed entry still counts the slot that it owned, which has no owner any more. A find
that hits index 1 then takes its mark, and no favored entry hits index 0. -/
theorem cover_lost_after_find :
    fastResume trivialBuild.platform.libm oneRead (writeFastresume oneRated) =
        .ok (resumed oneRated oneRead) ∧
      ResumesOn oneRated oneRead ∧
      ((resumed oneRated oneRead).queueBuf 0).tcRef = 1 ∧
      (ownedSlots (resumed oneRated oneRead) 0).card = 0 ∧
      (oneRated.queueBuf 0).favored = true ∧
      ((cullQueue secondFound).queueBuf 0).favored = false ∧
      ((cullQueue secondFound).queueBuf 1).favored = true ∧
      ¬ CoverKept trivialBuild.platform (fun _ => hitsFirst) oneRated
        (resumed oneRated oneRead) := by
  refine ⟨rfl, oneRead_resumes.2, by decide +kernel, by decide +kernel, by decide +kernel,
    by decide +kernel, by decide +kernel, fun kept => ?_⟩
  have found : Reachable (findSystem trivialBuild.platform
      (thenFound oneRated.queuedItems (fun _ => hitsFirst) fun _ => hitsSecond)
      (resumed oneRated oneRead)) secondFound :=
    .step (.init rfl) (.find 1 false { runs := fun _ => { trace := hitsSecond } } fun _ => rfl)
  obtain ⟨p, queued, favored, hit⟩ := kept.covers _ _ found 0 (by decide +kernel)
    (by decide +kernel) 0 (by decide +kernel) (by decide)
  revert p
  decide +kernel

end GreenFuzz.AflFuzz
