import GreenFuzz.AflFuzz.TraceMini
import Mathlib.Data.Option.Basic

/-!
# Favored entries cover the map

`cull_queue` walks the map indices and marks the owner of each index that no
favored entry covers yet. It tells what an owner covers from its `trace_mini`, and
passes over an owner without one. So the favored entries cover every owned index
if every owner still has its `trace_mini` (`favored_cover_of_reachable`).

An owner can lose it: the last loop of `cull_queue` marks the owners that were not
favored as redundant, which frees their `trace_mini` while they keep their slots.
At the next cull such an index may be left uncovered (`favored_miss_shadowed_owner`).
-/

set_option autoImplicit false

namespace GreenFuzz.AflFuzz

open Library

variable {libm : Libm} {own : ℕ → Buffer} {afl before after : AflState} {q i : ℕ}

/-- Every owned map index is hit by the trace of an entry marked favored. -/
def FavoredCover (own : ℕ → Buffer) (afl : AflState) : Prop :=
  ∀ i < afl.mapSize, afl.topRated i ≠ none →
    ∃ q < afl.queuedItems, (afl.queueBuf q).favored = true ∧ own q i ≠ 0

/-- Every owner of a slot still has its minimised trace. -/
def OwnersKeepMini (afl : AflState) : Prop :=
  ∀ i < afl.mapSize, ∀ q ∈ afl.topRated i, (afl.queueBuf q).traceMini.isSome = true

instance (own : ℕ → Buffer) (afl : AflState) : Decidable (FavoredCover own afl) :=
  inferInstanceAs (Decidable (∀ i < afl.mapSize, afl.topRated i ≠ none →
    ∃ q < afl.queuedItems, (afl.queueBuf q).favored = true ∧ own q i ≠ 0))

instance (afl : AflState) : Decidable (OwnersKeepMini afl) :=
  inferInstanceAs (Decidable (∀ i < afl.mapSize, ∀ q ∈ afl.topRated i, _))

/-! ## Owners -/

/-- What every run keeps: owners are queue entries that hit their index, and
minimised traces are their entries'. -/
structure Rated (own : ℕ → Buffer) (afl : AflState) : Prop where
  miniOwned : MiniOwned own afl
  queued : ∀ i q, afl.topRated i = some q → q < afl.queuedItems
  hits : ∀ i q, afl.topRated i = some q → own q i ≠ 0

theorem Rated.of_freed (rated : Rated own before) (freed : MinisFreed before after) :
    Rated own after where
  miniOwned := rated.miniOwned.of_freed freed
  queued i q owner :=
    (rated.queued i q (freed.topRated ▸ owner)).trans_le freed.queuedItems
  hits i q owner := rated.hits i q (freed.topRated ▸ owner)

theorem Unrated.rated (unrated : Unrated afl) : Rated own afl where
  miniOwned := unrated.miniOwned
  queued i q owner := by
    rw [unrated.topRated i] at owner
    cases owner
  hits i q owner := by
    rw [unrated.topRated i] at owner
    cases owner

/-- After a contest for index `i` the owners are the same, except that the contender
may own `i`. -/
theorem contend_topRated (libm : Libm) (afl : AflState) (q p2 factor len i : ℕ) :
    (contend libm afl q p2 factor len i).topRated = afl.topRated ∨
      (contend libm afl q p2 factor len i).topRated =
        Function.update afl.topRated i (some q) := by
  rw [contend_eq]
  split
  · right
    rw [← (minisFreed_releaseOwner afl i).topRated]
    rfl
  · exact Or.inl rfl

theorem contend_queuedItems (p2 factor len : ℕ) :
    (contend libm afl q p2 factor len i).queuedItems = afl.queuedItems := by
  rw [contend_eq]
  split
  · show (releaseOwner afl i).queuedItems = afl.queuedItems
    unfold releaseOwner
    split <;> rfl
  · rfl

theorem Rated.contend (rated : Rated own afl) (trace : TraceIsOwn own afl q)
    (queued : q < afl.queuedItems) (inside : i < afl.mapSize) (hit : afl.traceBits i ≠ 0)
    (p2 factor len : ℕ) : Rated own (contend libm afl q p2 factor len i) := by
  have owners : ∀ j p, (AflFuzz.contend libm afl q p2 factor len i).topRated j = some p →
      afl.topRated j = some p ∨ j = i ∧ p = q := by
    intro j p owner
    rcases contend_topRated libm afl q p2 factor len i with same | won
    · exact Or.inl (same ▸ owner)
    · rw [won, Function.update_apply] at owner
      split at owner
      · rename_i here
        exact Or.inr ⟨here, (Option.some.inj owner).symm⟩
      · exact Or.inl owner
  refine ⟨rated.miniOwned.contend trace p2 factor len i, ?_, ?_⟩
  · intro j p owner
    rw [contend_queuedItems]
    rcases owners j p owner with old | ⟨rfl, rfl⟩
    · exact rated.queued j p old
    · exact queued
  · intro j p owner
    rcases owners j p owner with old | ⟨rfl, rfl⟩
    · exact rated.hits j p old
    · exact (trace j inside).mp hit

theorem contend_mapSize (p2 factor len : ℕ) :
    (contend libm afl q p2 factor len i).mapSize = afl.mapSize := by
  rw [contend_eq]
  split
  · exact releaseOwner_mapSize afl i
  · rfl

/-- Scoring an entry with its own trace keeps owners right. -/
theorem Rated.updateBitmapScore (rated : Rated own afl) (trace : TraceIsOwn own afl q)
    (queued : q < afl.queuedItems) (haveTrace : Bool) :
    Rated own (updateBitmapScore libm afl q haveTrace) := by
  unfold AflFuzz.updateBitmapScore
  split
  · exact rated
  · dsimp only
    split
    · refine (foldl_invariant (P := fun t => Rated own t ∧ TraceIsOwn own t q ∧
        q < t.queuedItems ∧ t.mapSize = afl.mapSize) ⟨rated, trace, queued, rfl⟩ ?_).1
      intro i member t ⟨rated, trace, queued, size⟩
      have inside : i < t.mapSize := size ▸ List.mem_range.mp member
      split
      · rename_i hit
        exact ⟨rated.contend trace queued inside hit _ _ _, (contend_traceIsOwn _ _ _ _).mpr trace,
          (contend_queuedItems _ _ _).symm ▸ queued, (contend_mapSize _ _ _).trans size⟩
      · exact ⟨rated, trace, queued, size⟩
    · exact rated

theorem Rated.ratingStep (rated : Rated own before) (taken : RatingStep libm own before after) :
    Rated own after := by
  cases taken with
  | add len passedDet => exact rated.of_freed (minisFreed_addToQueue _ _ _)
  | score q queued =>
      have own_trace : Rated own { before with traceBits := own q } :=
        ⟨rated.miniOwned, rated.queued, rated.hits⟩
      exact own_trace.updateBitmapScore (fun i _ => Iff.rfl) queued true
  | redundant q state => exact rated.of_freed (minisFreed_markAsRedundant _ _ _)
  | cull => exact rated.of_freed (minisFreed_cullQueue _)
  | other _ same => exact rated.of_freed same.minisFreed

/-- The system of rating operations. -/
def ratingSystem (libm : Libm) (own : ℕ → Buffer) : TransitionSystem AflState where
  init := Unrated
  step := RatingStep libm own

theorem rated_of_reachable (run : Reachable (ratingSystem libm own) afl) : Rated own afl :=
  run.invariant (fun _ => Unrated.rated) fun _ _ _ rated taken => rated.ratingStep taken

/-! ## The main loop of `cull_queue` -/

/-- An entry that is also marked favored when `mark` holds. -/
def QueueEntry.alsoFavored (q : QueueEntry) (mark : Bool) : QueueEntry :=
  { q with favored := q.favored || mark }

@[simp] theorem QueueEntry.alsoFavored_false (q : QueueEntry) : q.alsoFavored false = q := by
  simp [alsoFavored]

theorem QueueEntry.alsoFavored_of_favored {q : QueueEntry} (favored : q.favored = true)
    (mark : Bool) : q.alsoFavored mark = q := by
  cases q
  simp_all [alsoFavored]

/-- Marking an enabled owner sets its flag and changes no other entry. -/
theorem markFavored_queueBuf (afl : AflState) {top : ℕ}
    (enabled : (afl.queueBuf top).disabled = false) (p : ℕ) :
    (markFavored afl top).queueBuf p = (afl.queueBuf p).alsoFavored (decide (p = top)) := by
  have marked : ((afl.modifyEntry top fun e => { e with favored := true }).queueBuf p) =
      (afl.queueBuf p).alsoFavored (decide (p = top)) := by
    by_cases same : p = top
    · subst same
      simp [QueueEntry.alsoFavored]
    · rw [AflState.modifyEntry_queueBuf_of_ne _ _ _ same, decide_eq_false same,
        QueueEntry.alsoFavored_false]
  unfold markFavored
  by_cases favored : (afl.queueBuf top).favored = true
  · rw [if_neg (by simp [favored])]
    by_cases same : p = top
    · subst same
      rw [QueueEntry.alsoFavored_of_favored favored]
    · rw [decide_eq_false same, QueueEntry.alsoFavored_false]
  · rw [if_pos (by simp [favored, enabled])]
    dsimp only
    split <;> exact marked

theorem markFavored_mapTmpBuf (afl : AflState) (top : ℕ) :
    (markFavored afl top).mapTmpBuf = afl.mapTmpBuf := by
  unfold markFavored
  dsimp only
  split
  · split <;> rfl
  · rfl

theorem markFavored_queuedItems (afl : AflState) (top : ℕ) :
    (markFavored afl top).queuedItems = afl.queuedItems := by
  unfold markFavored
  dsimp only
  split
  · split <;> rfl
  · rfl

/-- A round at an unseen index whose owner has a minimised trace. -/
theorem cullIndex_unseen {top : ℕ} {mini : TraceMini} (owner : afl.topRated i = some top)
    (unseen : bitSet afl.mapTmpBuf i = true) (present : (afl.queueBuf top).traceMini = some mini) :
    cullIndex afl i = markFavored { afl with
      mapTmpBuf := removeBits (afl.mapSize / 8) afl.mapTmpBuf mini.bytes } top := by
  simp only [cullIndex, owner, unseen, if_true, present]

/-- A round at an index that is covered already. -/
theorem cullIndex_seen (seen : bitSet afl.mapTmpBuf i = false) : cullIndex afl i = afl := by
  unfold cullIndex
  split
  · rfl
  · rw [if_neg (by simp [seen])]

/-- What the main loop has achieved before index `count`: a bit that is gone belongs
to a favored entry, and the bits of all owned indices below `count` are gone. -/
structure CullProgress (own : ℕ → Buffer) (start : AflState) (count : ℕ) (afl : AflState) :
    Prop where
  mapSize : afl.mapSize = start.mapSize
  queuedItems : afl.queuedItems = start.queuedItems
  topRated : afl.topRated = start.topRated
  entries : ∀ q, ∃ mark, afl.queueBuf q = (start.queueBuf q).alsoFavored mark
  covered : ∀ j < start.mapSize, bitSet afl.mapTmpBuf j = false →
    ∃ q < start.queuedItems, (afl.queueBuf q).favored = true ∧ own q j ≠ 0
  removed : ∀ j < count, start.topRated j ≠ none → bitSet afl.mapTmpBuf j = false

theorem CullProgress.start (own : ℕ → Buffer) (aligned : 8 ∣ afl.mapSize) :
    CullProgress own (cullReset afl) 0 (cullReset afl) where
  mapSize := rfl
  queuedItems := rfl
  topRated := rfl
  entries q := ⟨false, by simp⟩
  covered j inside gone := by
    have byte : j / 8 < afl.mapSize / 8 := by
      have inside : j < afl.mapSize := inside
      omega
    rw [bitSet_ones (if_pos byte)] at gone
    cases gone
  removed j below := absurd below (Nat.not_lt_zero j)

theorem CullProgress.seen {start : AflState} {count : ℕ}
    (progress : CullProgress own start count afl)
    (done : start.topRated count ≠ none → bitSet afl.mapTmpBuf count = false) :
    CullProgress own start (count + 1) afl := by
  refine { progress with removed := fun j early owned => ?_ }
  rcases Nat.lt_succ_iff_lt_or_eq.mp early with earlier | rfl
  · exact progress.removed j earlier owned
  · exact done owned

/-- Marking the owner `top` of the next index as favored makes progress. -/
theorem CullProgress.mark {start : AflState} {count top : ℕ}
    (progress : CullProgress own start count before) (frame : MinisFreed before after)
    (items : after.queuedItems = before.queuedItems)
    (entries : ∀ p, after.queueBuf p = (before.queueBuf p).alsoFavored (decide (p = top)))
    (bits : ∀ j < start.mapSize, bitSet after.mapTmpBuf j =
      (bitSet before.mapTmpBuf j && !decide (own top j ≠ 0)))
    (below : count < start.mapSize) (queued : top < start.queuedItems) (hit : own top count ≠ 0) :
    CullProgress own start (count + 1) after where
  mapSize := frame.mapSize.trans progress.mapSize
  queuedItems := items.trans progress.queuedItems
  topRated := frame.topRated.trans progress.topRated
  entries p := by
    obtain ⟨mark, entry⟩ := progress.entries p
    refine ⟨mark || decide (p = top), ?_⟩
    rw [entries p, entry]
    simp [QueueEntry.alsoFavored, Bool.or_assoc]
  covered j inside gone := by
    rw [bits j inside, Bool.and_eq_false_iff] at gone
    rcases gone with earlier | now
    · obtain ⟨q, queued, favored, hit⟩ := progress.covered j inside earlier
      refine ⟨q, queued, ?_, hit⟩
      simp [entries q, QueueEntry.alsoFavored, favored]
    · refine ⟨top, queued, ?_, by simpa using now⟩
      simp [entries top, QueueEntry.alsoFavored]
  removed j early owned := by
    rcases Nat.lt_succ_iff_lt_or_eq.mp early with earlier | rfl
    · rw [bits j (earlier.trans below), progress.removed j earlier owned, Bool.false_and]
    · rw [bits j below, decide_eq_true hit, Bool.not_true, Bool.and_false]

/-- One round of the main loop, when the owner of the index has its minimised
trace. -/
theorem CullProgress.step {start : AflState} (rated : Rated own start)
    (aligned : 8 ∣ start.mapSize)
    (enabled : ∀ q < start.queuedItems, (start.queueBuf q).disabled = false)
    (minis : OwnersKeepMini start) {count : ℕ} (below : count < start.mapSize)
    (progress : CullProgress own start count afl) :
    CullProgress own start (count + 1) (cullIndex afl count) := by
  cases bit : bitSet afl.mapTmpBuf count with
  | false =>
      rw [cullIndex_seen bit]
      exact progress.seen fun _ => bit
  | true =>
      cases owner : start.topRated count with
      | none =>
          have same : cullIndex afl count = afl := by
            rw [cullIndex, progress.topRated, owner]
          rw [same]
          exact progress.seen fun owned => absurd owner owned
      | some top =>
          obtain ⟨mini, present⟩ := Option.isSome_iff_exists.mp (minis count below top owner)
          obtain ⟨mark, entry⟩ := progress.entries top
          have queued : top < start.queuedItems := rated.queued count top owner
          have live : (afl.queueBuf top).disabled = false := by
            rw [entry]
            exact enabled top queued
          have round := cullIndex_unseen (progress.topRated ▸ owner) bit
            (show (afl.queueBuf top).traceMini = some mini by rw [entry]; exact present)
          refine progress.mark (minisFreed_cullIndex afl count) ?_ ?_ ?_ below queued
            (rated.hits count top owner)
          · rw [round, markFavored_queuedItems]
          · intro p
            rw [round]
            exact markFavored_queueBuf { afl with
              mapTmpBuf := removeBits (afl.mapSize / 8) afl.mapTmpBuf mini.bytes } live p
          · intro j inside
            rw [round, markFavored_mapTmpBuf, progress.mapSize,
              bitSet_removeBits _ _ (by omega), rated.miniOwned top mini present j inside]

/-! ## A whole cull -/

theorem markAsRedundant_favored (afl : AflState) (q p : ℕ) (state : Bool) :
    ((markAsRedundant afl q state).queueBuf p).favored = (afl.queueBuf p).favored := by
  unfold markAsRedundant
  split
  · rfl
  · exact AflState.modifyEntry_keeps _ _ _ QueueEntry.favored rfl p

theorem foldl_cullMark_favored (items : List ℕ) (afl : AflState) (p : ℕ) :
    ((items.foldl cullMark afl).queueBuf p).favored = (afl.queueBuf p).favored := by
  refine foldl_invariant
    (P := fun t : AflState => (t.queueBuf p).favored = (afl.queueBuf p).favored) rfl ?_
  intro q _ t same
  unfold cullMark
  split
  · rw [markAsRedundant_favored, same]
  · exact same

/-- A cull that acts, in a state whose owners all have their minimised traces. -/
theorem favoredCover_cullQueue (rated : Rated own afl) (aligned : 8 ∣ afl.mapSize)
    (enabled : ∀ q < afl.queuedItems, (afl.queueBuf q).disabled = false)
    (acts : cullReturnsEarly afl = false) (minis : OwnersKeepMini afl) :
    FavoredCover own (cullQueue afl) := by
  have entry (q : ℕ) : (cullReset afl).queueBuf q = { afl.queueBuf q with
      favored := if q < afl.queuedItems then false else (afl.queueBuf q).favored } := by
    unfold cullReset
    dsimp only
    split <;> rfl
  have loop : CullProgress own (cullReset afl) afl.mapSize
      ((List.range afl.mapSize).foldl cullIndex (cullReset afl)) := by
    refine foldl_range_invariant (CullProgress.start own aligned) fun i below t progress => ?_
    refine progress.step (rated.of_freed (minisFreed_cullReset afl)) aligned ?_ ?_ below
    · intro q queued
      rw [entry]
      exact enabled q queued
    · intro j inside q owner
      rw [entry]
      exact minis j inside q owner
  have size := (minisFreed_cullQueue afl).mapSize
  have owners := (minisFreed_cullQueue afl).topRated
  intro i inside owned
  rw [size] at inside
  rw [owners] at owned
  obtain ⟨q, queued, favored, hit⟩ := loop.covered i inside (loop.removed i inside owned)
  refine ⟨q, queued.trans_le (minisFreed_cullQueue afl).queuedItems, ?_, hit⟩
  rw [cullQueue, if_neg (by simp [acts])]
  exact (foldl_cullMark_favored _ _ _).trans favored

/-- **The favored entries cover the map** after every cull of every run that finds the
minimised trace of each owner in place. -/
theorem favored_cover_of_reachable (libm : Libm) (own : ℕ → Buffer) (afl : AflState)
    (run : Reachable (ratingSystem libm own) afl) (aligned : 8 ∣ afl.mapSize)
    (enabled : ∀ q < afl.queuedItems, (afl.queueBuf q).disabled = false)
    (acts : cullReturnsEarly afl = false) (minis : OwnersKeepMini afl) :
    FavoredCover own (cullQueue afl) :=
  favoredCover_cullQueue (rated_of_reachable run) aligned enabled acts minis

/-! ## A shadowed owner -/

/-- The traces of three entries: the first hits the indices 0 and 1, the second only
1, the third only 0. -/
def shadowTrace (q : ℕ) : Buffer := fun i =>
  if (q, i) ∈ [(0, 0), (0, 1), (1, 1), (2, 0)] then 1 else 0

/-- Score entry `q` with its own trace. -/
def scoreShadow (q : ℕ) (afl : AflState) : AflState :=
  updateBitmapScore Libm.identity { afl with traceBits := shadowTrace q } q true

/-- A queue of three entries on a map of eight bytes. -/
def threeQueued : AflState :=
  addToQueue (addToQueue (addToQueue { mapSize := 8 } 8 false) 8 false) 8 false

/-- The first two entries are scored and culled, and then the third is scored. -/
def shadowRun : AflState :=
  scoreShadow 2 (cullQueue (scoreShadow 1 (scoreShadow 0 threeQueued)))

theorem threeQueued_reachable : Reachable (ratingSystem Libm.identity shadowTrace) threeQueued := by
  have empty : Reachable (ratingSystem Libm.identity shadowTrace) { mapSize := 8 } :=
    .init ⟨fun _ => rfl, fun _ => rfl⟩
  exact ((empty.step (.add _ _ _)).step (.add _ _ _)).step (.add _ _ _)

/-- After the second entry is scored, all owners have their minimised traces, and the
cull covers the map. -/
theorem favored_cover_two_scored :
    let afl := scoreShadow 1 (scoreShadow 0 threeQueued)
    cullReturnsEarly afl = false ∧ OwnersKeepMini afl ∧
      FavoredCover shadowTrace (cullQueue afl) := by
  have run := (threeQueued_reachable.step (.score _ 0 (by decide))).step (.score _ 1 (by decide))
  exact ⟨by decide +kernel, by decide +kernel,
    favored_cover_of_reachable Libm.identity shadowTrace _ run (by decide +kernel)
      (by decide +kernel) (by decide +kernel) (by decide +kernel)⟩

/-- The second entry lost its minimised trace at the first cull and still owns index 1.
The second cull passes over it, and no favored entry hits index 1. -/
theorem favored_miss_shadowed_owner :
    Reachable (ratingSystem Libm.identity shadowTrace) shadowRun ∧ 8 ∣ shadowRun.mapSize ∧
      (∀ q < shadowRun.queuedItems, (shadowRun.queueBuf q).disabled = false) ∧
      cullReturnsEarly shadowRun = false ∧ ¬ FavoredCover shadowTrace (cullQueue shadowRun) := by
  refine ⟨?_, by decide +kernel, by decide +kernel, by decide +kernel, by decide +kernel⟩
  have scored := (threeQueued_reachable.step (.score _ 0 (by decide))).step (.score _ 1 (by decide))
  exact (scored.step (.cull _)).step (.score _ 2 (by decide +kernel))

end GreenFuzz.AflFuzz
