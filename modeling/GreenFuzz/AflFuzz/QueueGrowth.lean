import GreenFuzz.AflFuzz.CrashAccounting
import GreenFuzz.AflFuzz.FuzzOne

/-!
# How the queue grows

What fuzzing an entry does to the queue, up to the point where the entry is left: entries are
added, each with its counters, and the marks of the entries that were there stay as they are.

`Grows` is that relation. Most steps are `Quiet`: they touch neither the counters nor the marks.
The run lemma of the engines is `keepsBooks_fuzzEntry`; an entry whose calibration is retried
keeps its marks but not its `cal_failed` (`KeepsBooks`).
-/

set_option autoImplicit false

namespace GreenFuzz.AflFuzz

open Library

/-! ## Books -/

/-- The marks of an entry that the counters of the queue are about. -/
structure Marks where
  id : ℕ
  wasFuzzed : Bool
  disabled : Bool
  favored : Bool
  deriving DecidableEq

def QueueEntry.marks (e : QueueEntry) : Marks := ⟨e.id, e.wasFuzzed, e.disabled, e.favored⟩

/-- The counters that only culling the queue and leaving an entry change. -/
structure FavoredBooks where
  queuedFavored : ℕ
  pendingFavored : ℕ
  smallestFavored : ℤ
  reinitTable : Bool
  deriving DecidableEq

def AflState.favoredBooks (afl : AflState) : FavoredBooks :=
  ⟨afl.queuedFavored, afl.pendingFavored, afl.smallestFavored, afl.reinitTable⟩

/-- The owners of the slots are entries of the queue. -/
def OwnersQueued (afl : AflState) : Prop := ∀ i p, afl.topRated i = some p → p < afl.queuedItems

/-- Entries were added, with their counters, and nothing else of the books changed. -/
structure KeepsBooks (before after : AflState) : Prop where
  items : before.queuedItems ≤ after.queuedItems
  active : after.activeItems + before.queuedItems = before.activeItems + after.queuedItems
  pending : after.pendingNotFuzzed + before.queuedItems =
    before.pendingNotFuzzed + after.queuedItems
  books : after.favoredBooks = before.favoredBooks
  old : ∀ p < before.queuedItems, (after.queueBuf p).marks = (before.queueBuf p).marks
  fresh : ∀ p < after.queuedItems, before.queuedItems ≤ p →
    (after.queueBuf p).marks = ⟨p, false, false, false⟩
  owners : OwnersQueued before → OwnersQueued after

/-- Besides, no earlier entry was calibrated again. -/
structure Grows (before after : AflState) : Prop extends KeepsBooks before after where
  calFailed : ∀ p < before.queuedItems,
    (after.queueBuf p).calFailed = (before.queueBuf p).calFailed

/-- Neither the counters nor the marks changed. -/
structure Quiet (before after : AflState) : Prop where
  items : after.queuedItems = before.queuedItems
  active : after.activeItems = before.activeItems
  pending : after.pendingNotFuzzed = before.pendingNotFuzzed
  books : after.favoredBooks = before.favoredBooks
  marks : ∀ p, (after.queueBuf p).marks = (before.queueBuf p).marks
  calFailed : ∀ p, (after.queueBuf p).calFailed = (before.queueBuf p).calFailed
  owners : OwnersQueued before → OwnersQueued after

section Relations

variable {before middle after : AflState}

theorem KeepsBooks.trans (first : KeepsBooks before middle) (second : KeepsBooks middle after) :
    KeepsBooks before after where
  items := first.items.trans second.items
  active := by
    have := first.active
    have := second.active
    omega
  pending := by
    have := first.pending
    have := second.pending
    omega
  books := second.books.trans first.books
  old p inside := (second.old p (inside.trans_le first.items)).trans (first.old p inside)
  fresh p inside later := by
    by_cases early : p < middle.queuedItems
    · exact (second.old p early).trans (first.fresh p early later)
    · exact second.fresh p inside (Nat.le_of_not_lt early)
  owners owned := second.owners (first.owners owned)

theorem Grows.trans (first : Grows before middle) (second : Grows middle after) :
    Grows before after where
  toKeepsBooks := first.toKeepsBooks.trans second.toKeepsBooks
  calFailed p inside :=
    (second.calFailed p (inside.trans_le first.items)).trans (first.calFailed p inside)

theorem Quiet.refl (afl : AflState) : Quiet afl afl :=
  ⟨rfl, rfl, rfl, rfl, fun _ => rfl, fun _ => rfl, id⟩

theorem Quiet.trans (first : Quiet before middle) (second : Quiet middle after) :
    Quiet before after where
  items := second.items.trans first.items
  active := second.active.trans first.active
  pending := second.pending.trans first.pending
  books := second.books.trans first.books
  marks p := (second.marks p).trans (first.marks p)
  calFailed p := (second.calFailed p).trans (first.calFailed p)
  owners owned := second.owners (first.owners owned)

theorem Quiet.grows (quiet : Quiet before after) : Grows before after where
  items := quiet.items.ge
  active := by rw [quiet.active, quiet.items]
  pending := by rw [quiet.pending, quiet.items]
  books := quiet.books
  old p _ := quiet.marks p
  fresh p inside later := by
    rw [quiet.items] at inside
    exact absurd inside (Nat.not_lt.mpr later)
  owners := quiet.owners
  calFailed p _ := quiet.calFailed p

theorem Grows.refl (afl : AflState) : Grows afl afl := (Quiet.refl afl).grows

end Relations

/-! ## Quiet steps -/

theorem ignoresCosts_marks : IgnoresCosts QueueEntry.marks := by
  intro e resource value
  cases resource <;> rfl

theorem ignoresCosts_calFailed : IgnoresCosts QueueEntry.calFailed := by
  intro e resource value
  cases resource <;> rfl

theorem ignoresStatistics_marks : IgnoresStatistics QueueEntry.marks :=
  fun _ _ _ _ _ _ _ _ _ => rfl

/-- A change of one entry that keeps its marks and its `cal_failed`. -/
theorem quiet_modifyEntry (afl : AflState) (q : ℕ) (change : QueueEntry → QueueEntry)
    (marks : (change (afl.queueBuf q)).marks = (afl.queueBuf q).marks)
    (calFailed : (change (afl.queueBuf q)).calFailed = (afl.queueBuf q).calFailed) :
    Quiet afl (afl.modifyEntry q change) :=
  ⟨rfl, rfl, rfl, rfl, AflState.modifyEntry_keeps afl q change QueueEntry.marks marks,
    AflState.modifyEntry_keeps afl q change QueueEntry.calFailed calFailed, id⟩

theorem quiet_setTrace (afl : AflState) (trace : Buffer) :
    Quiet afl { afl with traceBits := trace } :=
  ⟨rfl, rfl, rfl, rfl, fun _ => rfl, fun _ => rfl, id⟩

theorem quiet_fuzzRunTarget (afl : AflState) (outcome : RunOutcome) :
    Quiet afl (fuzzRunTarget afl outcome) := by
  have marks := fuzzRunTarget_keeps ignoresCosts_marks afl outcome
  have calFailed := fuzzRunTarget_keeps ignoresCosts_calFailed afl outcome
  obtain ⟨_, _, _, ran⟩ := fuzzRunTarget_eq afl outcome
  refine ⟨?_, ?_, ?_, ?_, marks, calFailed, ?_⟩
  · rw [ran]; rfl
  · rw [ran]; rfl
  · rw [ran]; rfl
  · rw [ran]; rfl
  · rw [ran]; exact id

theorem quiet_hasNewBits (W : WordSize) (afl : AflState) (map : VirginMap) :
    Quiet afl (hasNewBits W afl map).2 := by
  unfold hasNewBits
  dsimp only
  cases map <;> split <;> exact ⟨rfl, rfl, rfl, rfl, fun _ => rfl, fun _ => rfl, id⟩

theorem quiet_releaseWinner (afl : AflState) (top : ℕ) : Quiet afl (releaseWinner afl top) := by
  unfold releaseWinner
  apply quiet_modifyEntry
  · simp only [QueueEntry.marks]
  · rfl

theorem quiet_insertWinner {afl : AflState} {q : ℕ} (queued : q < afl.queuedItems) (i len : ℕ) :
    Quiet afl (insertWinner afl q i len) := by
  have same := quiet_modifyEntry afl q
    (fun e => e.won ⟨len, minimizeBits afl.mapSize afl.traceBits⟩) rfl rfl
  refine ⟨rfl, rfl, rfl, rfl, same.marks, same.calFailed, fun owned j p owner => ?_⟩
  have slot : Function.update afl.topRated i (some q) j = some p := owner
  rw [Function.update_apply] at slot
  split at slot
  · cases slot
    exact queued
  · exact owned j p slot

/-- Contending for a slot changes references and minimised traces. -/
theorem quiet_contend (libm : Libm) {afl : AflState} {q : ℕ} (queued : q < afl.queuedItems)
    (p2 factor len i : ℕ) : Quiet afl (contend libm afl q p2 factor len i) := by
  unfold contend
  split
  · exact quiet_insertWinner queued i len
  · split
    · exact Quiet.refl afl
    · split
      · exact Quiet.refl afl
      · rename_i top _ _ _
        have released := quiet_releaseWinner afl top
        exact released.trans (quiet_insertWinner (by rwa [released.items]) i len)

theorem quiet_updateBitmapScore (libm : Libm) {afl : AflState} {q : ℕ}
    (queued : q < afl.queuedItems) (haveTrace : Bool) :
    Quiet afl (updateBitmapScore libm afl q haveTrace) := by
  unfold updateBitmapScore
  dsimp only
  split
  · exact Quiet.refl afl
  · split
    · refine foldl_invariant (P := Quiet afl) (Quiet.refl afl) fun i _ t same => ?_
      split
      · exact same.trans (quiet_contend libm (by rwa [same.items]) _ _ _ _)
      · exact same
    · exact Quiet.refl afl

/-! ## Calibration -/

section Calibration

variable (P : Platform) (q : ℕ) (input : CalibrationInput) (c : Calibration)

/-- What calibration of `q` keeps: the books, the marks of all entries, and the `cal_failed` of
the others. -/
structure KeepsOthers (before after : AflState) : Prop where
  items : after.queuedItems = before.queuedItems
  active : after.activeItems = before.activeItems
  pending : after.pendingNotFuzzed = before.pendingNotFuzzed
  books : after.favoredBooks = before.favoredBooks
  marks : ∀ p, (after.queueBuf p).marks = (before.queueBuf p).marks
  calFailed : ∀ p, p ≠ q → (after.queueBuf p).calFailed = (before.queueBuf p).calFailed
  owners : OwnersQueued before → OwnersQueued after

variable {q} {before middle after : AflState}

theorem Quiet.keepsOthers (quiet : Quiet before after) : KeepsOthers q before after :=
  ⟨quiet.items, quiet.active, quiet.pending, quiet.books, quiet.marks,
    fun p _ => quiet.calFailed p, quiet.owners⟩

theorem KeepsOthers.trans (first : KeepsOthers q before middle)
    (second : KeepsOthers q middle after) : KeepsOthers q before after where
  items := second.items.trans first.items
  active := second.active.trans first.active
  pending := second.pending.trans first.pending
  books := second.books.trans first.books
  marks p := (second.marks p).trans (first.marks p)
  calFailed p other := (second.calFailed p other).trans (first.calFailed p other)
  owners owned := second.owners (first.owners owned)

theorem KeepsOthers.keepsBooks (kept : KeepsOthers q before after) : KeepsBooks before after where
  items := kept.items.ge
  active := by rw [kept.active, kept.items]
  pending := by rw [kept.pending, kept.items]
  books := kept.books
  old p _ := kept.marks p
  fresh p inside later := by
    rw [kept.items] at inside
    exact absurd inside (Nat.not_lt.mpr later)
  owners := kept.owners

theorem keepsOthers_modifyEntry (afl : AflState) (q : ℕ) (change : QueueEntry → QueueEntry)
    (marks : (change (afl.queueBuf q)).marks = (afl.queueBuf q).marks) :
    KeepsOthers q afl (afl.modifyEntry q change) :=
  ⟨rfl, rfl, rfl, rfl, AflState.modifyEntry_keeps afl q change QueueEntry.marks marks,
    fun p other => by rw [AflState.modifyEntry_queueBuf_of_ne _ _ _ other], id⟩

theorem quiet_examineTrace (q : ℕ) : Quiet c.afl (examineTrace P q c).afl := by
  have classified : Quiet c.afl (classifyTrace P c.afl) := quiet_setTrace c.afl _
  have looked : Quiet c.afl (lookUpTrace P c.afl) :=
    classified.trans (quiet_hasNewBits P.wordSize _ .bits)
  rcases examineTrace_afl P q c with same | ⟨-, same⟩ | ⟨cksum, same⟩
  · rw [same]
    exact classified
  · rw [same]
    exact ⟨looked.items, looked.active, looked.pending, looked.books, looked.marks,
      looked.calFailed, looked.owners⟩
  · have stored := looked.trans
      (quiet_modifyEntry _ q (fun e => { e with execCksum := cksum }) rfl rfl)
    rw [same]
    exact ⟨stored.items, stored.active, stored.pending, stored.books, stored.marks,
      stored.calFailed, stored.owners⟩

theorem quiet_calibrationRound (q stageCur : ℕ) :
    Quiet c.afl (calibrationRound P q input c stageCur).afl := by
  have ran := quiet_fuzzRunTarget c.afl (input.runs stageCur)
  rcases calibrationRound_cases P q input c stageCur with
    ⟨-, idle⟩ | ⟨-, -, ⟨fault, stopped⟩ | accepted⟩
  · rw [idle]
    exact Quiet.refl _
  · rw [stopped]
    exact ran
  · rw [accepted]
    exact ran.trans (quiet_examineTrace P { c with
      afl := fuzzRunTarget c.afl (input.runs stageCur)
      fault := (input.runs stageCur).fault } q)

theorem keepsOthers_startCalibration (afl : AflState) (q : ℕ) :
    KeepsOthers q afl (startCalibration P afl q).afl := by
  have announced : KeepsOthers q afl (announceCalibration afl q) :=
    keepsOthers_modifyEntry afl q _ rfl
  unfold startCalibration calibrationNewBits
  dsimp only
  split
  · have saved : Quiet (announceCalibration afl q) (saveFirstTrace (announceCalibration afl q)) :=
      ⟨rfl, rfl, rfl, rfl, fun _ => rfl, fun _ => rfl, id⟩
    exact announced.trans (saved.trans (quiet_hasNewBits P.wordSize _ .bits)).keepsOthers
  · exact announced

theorem keepsOthers_calibrationLoop (afl : AflState) (q : ℕ) :
    KeepsOthers q afl (calibrationLoop P afl q input).afl :=
  foldl_invariant (P := fun c : Calibration => KeepsOthers q afl c.afl)
    (keepsOthers_startCalibration P afl q)
    fun stageCur _ c kept => kept.trans (quiet_calibrationRound P input c q stageCur).keepsOthers

theorem keepsOthers_recordStatistics (afl : AflState) (q stageMax : ℕ) :
    KeepsOthers q afl (recordStatistics afl q input stageMax) := by
  refine ⟨rfl, rfl, rfl, rfl, ?_, fun p other => ?_, id⟩
  · exact recordStatistics_keeps q input afl stageMax ignoresStatistics_marks
  · unfold recordStatistics
    dsimp only
    rw [AflState.modifyEntry_queueBuf_of_ne _ _ _ other]

theorem quiet_closeCalibration (q : ℕ) : Quiet c.afl (closeCalibration q c) := by
  have covered := quiet_modifyEntry c.afl q (fun e => { e with hasNewCov := true }) rfl rfl
  unfold closeCalibration
  dsimp only
  split <;> split
  · exact ⟨rfl, rfl, rfl, rfl, covered.marks, covered.calFailed, id⟩
  · exact ⟨rfl, rfl, rfl, rfl, fun _ => rfl, fun _ => rfl, id⟩
  · exact ⟨rfl, rfl, rfl, rfl, covered.marks, covered.calFailed, id⟩
  · exact Quiet.refl _

/-- Calibrating an entry keeps the books and the marks. -/
theorem keepsOthers_calibrateCase {afl : AflState} {q : ℕ} (queued : q < afl.queuedItems) :
    KeepsOthers q afl (calibrateCase P afl q input).2 := by
  have loop := keepsOthers_calibrationLoop P input afl q
  unfold calibrateCase
  dsimp only
  split
  · exact loop.trans (quiet_closeCalibration _ q).keepsOthers
  · refine (loop.trans ?_).trans (quiet_closeCalibration _ q).keepsOthers
    unfold completeCalibration
    have recorded := keepsOthers_recordStatistics input (calibrationLoop P afl q input).afl q
      (calibrationLoop P afl q input).stageMax
    refine recorded.trans (quiet_updateBitmapScore _ ?_ true).keepsOthers
    rwa [recorded.items, loop.items]

end Calibration

/-! ## Saving -/

section Saving

variable {B : Build} {input : SaveInput} {c d : SaveLocals}

/-- **The steps that precede saving are quiet.** -/
theorem keptBySanitizers_quiet (B : Build) (input : SaveInput) :
    KeptBySanitizers B input fun c d => Quiet c.s.afl d.s.afl where
  refl c := Quiet.refl c.s.afl
  trans := Quiet.trans
  classify c := by
    unfold classifyIfNecessary
    split
    · exact Quiet.refl _
    · exact quiet_setTrace c.s.afl _
  sum c _ _ := Quiet.refl c.s.afl
  look c := quiet_hasNewBits B.variant.wordSize c.s.afl .bits
  note c _ := Quiet.refl c.s.afl
  count _ _ := ⟨rfl, rfl, rfl, rfl, fun _ => rfl, fun _ => rfl, id⟩
  mark c _ _ := Quiet.refl c.s.afl
  run c sanIdx := by
    have ran := quiet_fuzzRunTarget c.s.afl (input.sanRuns sanIdx)
    exact ⟨ran.items, ran.active, ran.pending, ran.books, ran.marks, ran.calFailed, ran.owners⟩

theorem quiet_describeEntry (afl : AflState) (q newBits cksum : ℕ) :
    Quiet afl (describeEntry afl q newBits cksum) := by
  have summed := quiet_modifyEntry afl q (fun e => { e with execCksum := cksum }) rfl rfl
  have covered (t : AflState) (count : ℕ) : Quiet t (if newBits = 2 then
      { t.modifyEntry q fun e => { e with hasNewCov := true } with queuedWithCov := count }
      else t) := by
    have same := quiet_modifyEntry t q (fun e => { e with hasNewCov := true }) rfl rfl
    split
    · exact ⟨rfl, rfl, rfl, rfl, same.marks, same.calFailed, id⟩
    · exact Quiet.refl t
  have counted (t : AflState) (paths : ℕ → ℕ) : Quiet t (if t.countsPaths then
      { t.modifyEntry q fun e => { e with nFuzzEntry := cksum % nFuzzSize } with nFuzz := paths }
      else t) := by
    have same := quiet_modifyEntry t q (fun e => { e with
      nFuzzEntry := cksum % nFuzzSize }) rfl rfl
    split
    · exact ⟨rfl, rfl, rfl, rfl, same.marks, same.calFailed, id⟩
    · exact Quiet.refl t
  exact (summed.trans (covered _ _)).trans (counted _ _)

/-- A new entry comes with its counters. -/
theorem grows_addToQueue (afl : AflState) (len : ℕ) (passedDet : Bool) :
    Grows afl (addToQueue afl len passedDet) where
  items := Nat.le_succ _
  active := by
    show afl.activeItems + 1 + afl.queuedItems = afl.activeItems + (afl.queuedItems + 1)
    omega
  pending := by
    show afl.pendingNotFuzzed + 1 + afl.queuedItems = afl.pendingNotFuzzed + (afl.queuedItems + 1)
    omega
  books := rfl
  old p inside := by
    show (Function.update afl.queueBuf afl.queuedItems _ p).marks = _
    rw [Function.update_of_ne inside.ne]
  fresh p inside later := by
    have here : p = afl.queuedItems := Nat.le_antisymm (Nat.lt_succ_iff.mp inside) later
    subst here
    show (Function.update afl.queueBuf afl.queuedItems _ afl.queuedItems).marks = _
    rw [Function.update_self]
    rfl
  owners owned i p owner := (owned i p owner).trans (Nat.lt_succ_self _)
  calFailed p inside := by
    show (Function.update afl.queueBuf afl.queuedItems _ p).calFailed = _
    rw [Function.update_of_ne inside.ne]

/-- The new entry is the last one, so its own calibration does not concern the others. -/
theorem keepsOthers_entry (B : Build) (c : SaveLocals) (input : CalibrationInput) :
    KeepsOthers c.s.afl.queuedItems c.withEntry
      (calibrateCase B.platform c.withEntry c.s.afl.queuedItems input).2 := by
  refine keepsOthers_calibrateCase B.platform input ?_
  rw [SaveLocals.withEntry, (quiet_describeEntry _ _ _ _).items]
  exact Nat.lt_succ_self _

/-- Adding a case to the queue adds one entry. -/
theorem saveToQueue_items (queued : saveToQueue B input c = .ok d) :
    d.s.afl.queuedItems = c.s.afl.queuedItems + 1 := by
  obtain ⟨counted, files, found, -, rfl⟩ := saveToQueue_cases queued
  have calibrated := keepsOthers_entry B counted input.calibration
  have described : counted.withEntry.queuedItems = counted.s.afl.queuedItems + 1 :=
    (quiet_describeEntry _ _ _ _).items
  exact (calibrated.items.trans described).trans
    (congrArg (· + 1) ((keptBySanitizers_quiet B input).counted found).items)

theorem grows_saveToQueue (queued : saveToQueue B input c = .ok d) : Grows c.s.afl d.s.afl := by
  obtain ⟨counted, files, found, -, rfl⟩ := saveToQueue_cases queued
  have same := (keptBySanitizers_quiet B input).counted found
  have added := grows_addToQueue counted.s.afl counted.mem.length false
  have described := quiet_describeEntry (addToQueue counted.s.afl counted.mem.length false)
    counted.s.afl.queuedItems counted.newBits counted.cksum
  have calibrated := keepsOthers_entry B counted input.calibration
  have grown : Grows counted.s.afl counted.withEntry := added.trans described.grows
  refine same.grows.trans ⟨⟨?_, ?_, ?_, ?_, ?_, ?_, ?_⟩, ?_⟩
  · exact grown.items.trans calibrated.items.ge
  · rw [calibrated.active, calibrated.items]
    exact grown.active
  · rw [calibrated.pending, calibrated.items]
    exact grown.pending
  · rw [calibrated.books, grown.books]
  · intro p inside
    rw [calibrated.marks, grown.old p inside]
  · intro p inside later
    rw [calibrated.items] at inside
    rw [calibrated.marks, grown.fresh p inside later]
  · exact fun owned => calibrated.owners (grown.owners owned)
  · intro p inside
    rw [calibrated.calFailed p inside.ne, grown.calFailed p inside]

theorem quiet_newToMap (B : Build) (afl : AflState) (map : VirginMap) :
    Quiet afl (newToMap B afl map).2 := by
  unfold newToMap
  split
  · exact Quiet.refl afl
  · exact (quiet_setTrace afl _).trans (quiet_hasNewBits B.variant.wordSize _ map)

theorem quiet_keepAsCrash (kept : keepAsCrash B input c = .ok d) : Quiet c.s.afl d.s.afl := by
  rcases keepAsCrash_afl kept with same | examined
  · rw [same]
    exact Quiet.refl _
  · rw [examined]
    exact quiet_newToMap B c.s.afl .crash

theorem quiet_keepAsHang (kept : keepAsHang B input c = .ok d) : Quiet c.s.afl d.s.afl := by
  obtain ⟨files, created, result⟩ := bind_eq_ok_iff.mp kept
  cases result
  exact Quiet.refl _

theorem quiet_countHang (B : Build) (c : SaveLocals) :
    Quiet c.s.afl (countHang B c).2.s.afl := by
  have examined := quiet_newToMap B c.s.afl .tmout
  unfold countHang
  dsimp only
  split
  · exact Quiet.refl _
  · split
    · exact examined
    · exact examined

theorem quiet_rerunHang (c : SaveLocals) (rerun : HangRerun) :
    Quiet c.s.afl (rerunHang c rerun).s.afl :=
  quiet_fuzzRunTarget c.s.afl rerun.run

/-- A hang adds an entry for each of its reruns that is kept. -/
theorem grows_examineHang (reruns : List HangRerun)
    (done : examineHang B input reruns c = .ok d) : Grows c.s.afl d.s.afl := by
  refine examineHang_rule (R := fun c d => Grows c.s.afl d.s.afl) Grows.trans ?_ ?_ ?_ ?_ ?_
    reruns done
  · exact fun c => (quiet_countHang B c).grows
  · exact fun c rerun => (quiet_rerunHang c rerun).grows
  · exact fun kept => (quiet_keepAsHang kept).grows
  · exact fun kept => (quiet_keepAsCrash kept).grows
  · intro _ _ _ queued
    have saved := grows_saveToQueue queued
    exact saved

theorem grows_saveFault {fault : FsrvRunResult} (done : saveFault B input fault c = .ok d) :
    Grows c.s.afl d.s.afl := by
  unfold saveFault at done
  split at done
  · exact grows_examineHang input.hangRuns done
  · exact (quiet_keepAsCrash done).grows
  · cases done
  · cases done
    exact Grows.refl _

theorem grows_saveWanted (done : saveWanted B input c = .ok d) : Grows c.s.afl d.s.afl := by
  obtain ⟨⟨crashed, ran⟩, sanitized, rest⟩ := bind_eq_ok_iff.mp done
  obtain ⟨counted, found, rest⟩ := bind_eq_ok_iff.mp rest
  have kept := keptBySanitizers_quiet B input
  have same := (kept.sanitizers sanitized).trans (kept.newBits found)
  dsimp only at rest
  split at rest
  · split at rest
    · exact same.grows.trans (grows_saveFault rest)
    · cases rest
      exact same.grows
  · obtain ⟨queued, added, rest⟩ := bind_eq_ok_iff.mp rest
    exact same.grows.trans ((grows_saveToQueue added).trans (grows_saveFault rest))

/-- **Saving an execution** adds the entries it makes, with their counters. -/
theorem grows_saveIfInteresting {s t : SaveState} {kept : Bool}
    (done : saveIfInteresting B s input = .ok (kept, t)) : Grows s.afl t.afl := by
  have counted := (keptBySanitizers_quiet B input).frequency { s := s, mem := input.mem }
  unfold saveIfInteresting at done
  split at done
  · cases done
    exact Grows.refl _
  · split at done
    · cases done
      exact counted.grows
    · dsimp only at done
      split at done
      · obtain ⟨d, saved, result⟩ := bind_eq_ok_iff.mp done
        cases result
        exact counted.grows.trans (grows_saveWanted saved)
      · obtain ⟨d, saved, result⟩ := bind_eq_ok_iff.mp done
        cases result
        exact counted.grows.trans (grows_saveFault saved)

end Saving

/-! ## The engines -/

section Engines

variable {B : Build} {s t : SaveState} {q : ℕ} {input : FuzzOneInput}

theorem grows_commonFuzzStuff {p p' : Progress} {e : Execution}
    (done : commonFuzzStuff B p e = .ok p') : Grows p.s.afl p'.s.afl := by
  have ran := (quiet_fuzzRunTarget p.s.afl e.run).grows
  unfold commonFuzzStuff at done
  split at done
  · cases done
    exact Grows.refl _
  · dsimp only at done
    split at done
    · cases done
      exact ran
    · split at done
      · cases done
        exact ran
      · split at done
        · cases done
          exact ran
        · obtain ⟨saved, interesting, result⟩ := bind_eq_ok_iff.mp done
          cases result
          have grown := grows_saveIfInteresting interesting
          exact ran.trans ⟨⟨grown.items, grown.active, grown.pending, grown.books, grown.old,
            grown.fresh, grown.owners⟩, grown.calFailed⟩

theorem grows_runStages {p p' : Progress} (stages : List Execution)
    (done : runStages B p stages = .ok p') : Grows p.s.afl p'.s.afl := by
  induction stages generalizing p with
  | nil =>
      cases done
      exact Grows.refl _
  | cons e rest ih =>
      unfold runStages at done
      obtain ⟨next, first, rest⟩ := bind_eq_ok_iff.mp done
      have grown := grows_commonFuzzStuff first
      split at rest
      · cases rest
        exact grown
      · exact grown.trans (ih rest)

theorem quiet_trimEntry (B : Build) {afl : AflState} (queued : q < afl.queuedItems)
    (trim : TrimResult) : Quiet afl (trimEntry B afl q trim) := by
  have ran : Quiet afl (trim.runs.foldl fuzzRunTarget afl) :=
    foldl_invariant (P := Quiet afl) (Quiet.refl afl)
      fun outcome _ t same => same.trans (quiet_fuzzRunTarget t outcome)
  have shorter := ran.trans (quiet_modifyEntry (trim.runs.foldl fuzzRunTarget afl) q
    (fun e => { e with len := trim.len }) rfl rfl)
  unfold trimEntry
  dsimp only
  split
  · exact shorter
  · rename_i trace _
    have restored := shorter.trans (quiet_setTrace _ trace)
    exact restored.trans (quiet_updateBitmapScore B.libm (by rwa [restored.items]) true)

theorem quiet_trimOnce {afl after : AflState} {leave : Bool} (queued : q < afl.queuedItems)
    (done : trimOnce B afl q input = .ok (leave, after)) : Quiet afl after := by
  have trimmed := quiet_trimEntry B queued input.trim
  have marked := trimmed.trans (quiet_modifyEntry (trimEntry B afl q input.trim) q
    (fun e => { e with trimDone := true }) rfl rfl)
  unfold trimOnce at done
  split at done
  · cases done
    exact Quiet.refl _
  · split at done
    · cases done
    · dsimp only at done
      split at done
      · cases done
        exact trimmed
      · cases done
        exact ⟨marked.items, marked.active, marked.pending, marked.books, marked.marks,
          marked.calFailed, marked.owners⟩

theorem quiet_scoreEntryOnce (engine : Engine) (afl : AflState) (q : ℕ) (input : FuzzOneInput) :
    Quiet afl (scoreEntryOnce engine afl q input).2 := by
  unfold scoreEntryOnce
  dsimp only
  split
  · exact quiet_modifyEntry afl q _ rfl rfl
  · exact Quiet.refl afl

/-- The last part of an engine, from trimming on. -/
theorem grows_fuzzCalibrated {engine : Engine} {afl : AflState} (queued : q < afl.queuedItems)
    (done : (do
      let trimmed ← trimOnce B afl q input
      if trimmed.1 then .ok { s with afl := trimmed.2 }
      else
        let scored := scoreEntryOnce engine trimmed.2 q input
        if scored.1 then .ok { s with afl := scored.2 }
        else do
          let p ← runStages B { s := { s with afl := scored.2 } } input.stages
          .ok p.s) = Except.ok t) : Grows afl t.afl := by
  obtain ⟨⟨leave, trimmed⟩, trimming, rest⟩ := bind_eq_ok_iff.mp done
  have same := quiet_trimOnce queued trimming
  dsimp only at rest
  split at rest
  · cases rest
    exact same.grows
  · have scored := same.trans (quiet_scoreEntryOnce engine trimmed q input)
    split at rest
    · cases rest
      exact scored.grows
    · obtain ⟨p, ran, result⟩ := bind_eq_ok_iff.mp rest
      cases result
      exact scored.grows.trans (grows_runStages input.stages ran)

/-- Retrying a calibration keeps the books. -/
theorem keepsBooks_retryCalibration (B : Build) {afl : AflState} (queued : q < afl.queuedItems)
    (input : FuzzOneInput) : KeepsBooks afl (retryCalibration B afl q input).2 := by
  have cleared := quiet_modifyEntry afl q (fun e => { e with execCksum := 0 }) rfl rfl
  have calibrated := keepsOthers_calibrateCase B.platform input.recalibration
    (show q < (afl.modifyEntry q fun e => { e with execCksum := 0 }).queuedItems from queued)
  unfold retryCalibration
  split
  · exact (cleared.keepsOthers.trans calibrated).keepsBooks
  · exact (Grows.refl _).toKeepsBooks

theorem keepsBooks_calibrateAgain {afl after : AflState} {leave : Bool}
    (queued : q < afl.queuedItems)
    (done : calibrateAgain B afl q input = .ok (leave, after)) : KeepsBooks afl after := by
  unfold calibrateAgain at done
  split at done
  · cases done
    exact (Grows.refl _).toKeepsBooks
  · dsimp only at done
    split at done
    · cases done
    · have last : (retryCalibration B afl q input).2 = after :=
        congrArg Prod.snd (Except.ok.inj done)
      rw [← last]
      exact keepsBooks_retryCalibration B queued input

/-- **What fuzzing an entry does before the entry is left**: the queue grows. A calibration that
failed earlier is retried and changes only the entry's own `cal_failed`. -/
theorem keepsBooks_fuzzEntry {engine : Engine} (queued : q < s.afl.queuedItems)
    (done : fuzzEntry B engine s q input = .ok t) :
    KeepsBooks s.afl t.afl ∧ ((s.afl.queueBuf q).calFailed = 0 → Grows s.afl t.afl) := by
  obtain ⟨⟨leave, calibrated⟩, calibrating, rest⟩ := bind_eq_ok_iff.mp done
  have level : Quiet s.afl { s.afl with curDepth := (s.afl.queueBuf q).depth } :=
    ⟨rfl, rfl, rfl, rfl, fun _ => rfl, fun _ => rfl, id⟩
  have deeper := level.grows
  have retried : KeepsBooks { s.afl with curDepth := (s.afl.queueBuf q).depth } calibrated :=
    keepsBooks_calibrateAgain queued calibrating
  have fuzzed : Grows calibrated t.afl := by
    dsimp only at rest
    split at rest
    · cases rest
      exact Grows.refl _
    · have still : q < calibrated.queuedItems := queued.trans_le retried.items
      exact grows_fuzzCalibrated still rest
  refine ⟨(deeper.toKeepsBooks.trans retried).trans fuzzed.toKeepsBooks, fun fine => ?_⟩
  have same : calibrated = { s.afl with curDepth := (s.afl.queueBuf q).depth } := by
    unfold calibrateAgain at calibrating
    rw [if_pos fine] at calibrating
    cases calibrating
    rfl
  rw [same] at fuzzed
  exact deeper.trans fuzzed

/-! ## Leaving an entry -/

theorem quiet_raiseFuzzLevel (afl : AflState) (q : ℕ) : Quiet afl (raiseFuzzLevel afl q) :=
  quiet_modifyEntry afl q _ rfl rfl

theorem abandonEntry_stopSoon (afl : AflState) (q : ℕ) :
    (abandonEntry afl q).stopSoon = afl.stopSoon := by
  unfold abandonEntry raiseFuzzLevel settleEntry
  dsimp only
  split
  · rfl
  · rfl

theorem abandonEntry_queuedItems (afl : AflState) (q : ℕ) :
    (abandonEntry afl q).queuedItems = afl.queuedItems := by
  unfold abandonEntry raiseFuzzLevel settleEntry
  dsimp only
  split
  · rfl
  · rfl

/-- A call of the classic engine does nothing to the queue, or the queue grows and then the entry
is left. -/
theorem fuzzOneOriginal_cases (queued : q < s.afl.queuedItems)
    (done : fuzzOneOriginal B s q input = .ok t) :
    t.afl = s.afl ∨ ∃ afl, KeepsBooks s.afl afl ∧ t.afl.queuedItems = afl.queuedItems ∧
      t.afl = abandonEntry afl q := by
  unfold fuzzOneOriginal at done
  split at done
  · cases done
    exact Or.inr ⟨s.afl, (Grows.refl _).toKeepsBooks, abandonEntry_queuedItems _ q, rfl⟩
  · split at done
    · cases done
      exact Or.inl rfl
    · obtain ⟨fuzzed, reached, result⟩ := bind_eq_ok_iff.mp done
      cases result
      exact Or.inr ⟨fuzzed.afl, (keepsBooks_fuzzEntry queued reached).1,
        abandonEntry_queuedItems _ q, rfl⟩

/-- What holds while the queue grows and when an entry is left, holds after a call of the classic
engine. -/
theorem holds_fuzzOneOriginal {P : AflState → Prop} (queued : q < s.afl.queuedItems)
    (bound : t.afl.queuedItems < 2 ^ 32) (done : fuzzOneOriginal B s q input = .ok t)
    (holds : P s.afl)
    (grow : ∀ afl, KeepsBooks s.afl afl → afl.queuedItems < 2 ^ 32 → P afl)
    (leave : ∀ afl, P afl → q < afl.queuedItems → P (abandonEntry afl q)) : P t.afl := by
  rcases fuzzOneOriginal_cases queued done with same | ⟨afl, kept, items, left⟩
  · rw [same]
    exact holds
  · have grown := grow afl kept (items.symm.trans_lt bound)
    rw [left]
    exact leave afl grown (queued.trans_le kept.items)

end Engines

end GreenFuzz.AflFuzz
