import GreenFuzz.AflFuzz.DryRun
import GreenFuzz.AflFuzz.FavoredCounters

/-!
# The counters of the queue

`active_items` should be the number of enabled entries, and `pending_not_fuzzed` the number of
enabled entries that were not fuzzed (`QueueCounted`). Nothing recomputes them: every place that
adds, retires, disables or settles an entry keeps them by hand.

The dry run takes a seed out with two blocks, one that retires it and one that disables it. They
belong together. A crashing seed under `AFL_CRASHING_SEEDS_AS_NEW_CRASH` whose trace
`virgin_crash` knows already is only retired (`KnownCrash`), and `active_items` is wrong from
then on (`active_items_lost_on_known_crash`). In runs where that does not happen, the counters
are right in every state (`queue_counters_of_reachable`).
-/

set_option autoImplicit false

namespace GreenFuzz.AflFuzz

open Library

/-! ## The counters -/

def IsEnabled (afl : AflState) (q : ℕ) : Prop := (afl.queueBuf q).disabled = false

/-- Enabled, and not fuzzed yet. -/
def IsWaiting (afl : AflState) (q : ℕ) : Prop :=
  (afl.queueBuf q).wasFuzzed = false ∧ (afl.queueBuf q).disabled = false

instance (afl : AflState) : DecidablePred (IsEnabled afl) := fun q =>
  inferInstanceAs (Decidable ((afl.queueBuf q).disabled = false))

instance (afl : AflState) : DecidablePred (IsWaiting afl) := fun q =>
  inferInstanceAs (Decidable ((afl.queueBuf q).wasFuzzed = false ∧ _))

/-- The two counters count, within the range of a `u32`. -/
structure QueueCounted (afl : AflState) : Prop where
  bound : afl.queuedItems < 2 ^ 32
  active : afl.activeItems = Nat.count (IsEnabled afl) afl.queuedItems
  pending : afl.pendingNotFuzzed = Nat.count (IsWaiting afl) afl.queuedItems

/-- Neither the counters nor the marks they are about changed. -/
structure SameActivity (before after : AflState) : Prop where
  items : after.queuedItems = before.queuedItems
  active : after.activeItems = before.activeItems
  pending : after.pendingNotFuzzed = before.pendingNotFuzzed
  wasFuzzed : ∀ p, (after.queueBuf p).wasFuzzed = (before.queueBuf p).wasFuzzed
  disabled : ∀ p, (after.queueBuf p).disabled = (before.queueBuf p).disabled

variable {before middle after afl : AflState} {q : ℕ}

theorem SameActivity.refl (afl : AflState) : SameActivity afl afl :=
  ⟨rfl, rfl, rfl, fun _ => rfl, fun _ => rfl⟩

theorem SameActivity.trans (first : SameActivity before middle)
    (second : SameActivity middle after) : SameActivity before after where
  items := second.items.trans first.items
  active := second.active.trans first.active
  pending := second.pending.trans first.pending
  wasFuzzed p := (second.wasFuzzed p).trans (first.wasFuzzed p)
  disabled p := (second.disabled p).trans (first.disabled p)

theorem Quiet.sameActivity (quiet : Quiet before after) : SameActivity before after where
  items := quiet.items
  active := quiet.active
  pending := quiet.pending
  wasFuzzed p := (marks_eq_iff.mp (quiet.marks p)).2.1
  disabled p := (marks_eq_iff.mp (quiet.marks p)).2.2.1

theorem KeepsOthers.sameActivity (kept : KeepsOthers q before after) :
    SameActivity before after where
  items := kept.items
  active := kept.active
  pending := kept.pending
  wasFuzzed p := (marks_eq_iff.mp (kept.marks p)).2.1
  disabled p := (marks_eq_iff.mp (kept.marks p)).2.2.1

theorem SameActivity.isEnabled (same : SameActivity before after) (p : ℕ) :
    IsEnabled after p ↔ IsEnabled before p := by
  rw [IsEnabled, same.disabled]
  exact Iff.rfl

theorem SameActivity.isWaiting (same : SameActivity before after) (p : ℕ) :
    IsWaiting after p ↔ IsWaiting before p := by
  rw [IsWaiting, same.wasFuzzed, same.disabled]
  exact Iff.rfl

theorem QueueCounted.of_same (counted : QueueCounted before) (same : SameActivity before after) :
    QueueCounted after where
  bound := same.items ▸ counted.bound
  active := by
    rw [same.active, counted.active, same.items]
    exact count_congr_below fun p _ => (same.isEnabled p).symm
  pending := by
    rw [same.pending, counted.pending, same.items]
    exact count_congr_below fun p _ => (same.isWaiting p).symm

/-! ## Growing and settling -/

theorem QueueCounted.of_keepsBooks (counted : QueueCounted before)
    (kept : KeepsBooks before after) (bound : after.queuedItems < 2 ^ 32) :
    QueueCounted after := by
  have old (p : ℕ) (inside : p < before.queuedItems) := marks_eq_iff.mp (kept.old p inside)
  have fresh (p : ℕ) (inside : p < after.queuedItems) (later : before.queuedItems ≤ p) :
      IsWaiting after p := by
    have marks := kept.fresh p inside later
    simp only [QueueEntry.marks, Marks.mk.injEq] at marks
    exact ⟨marks.2.1, marks.2.2.1⟩
  have enabled := count_grow (p := IsEnabled before) (q := IsEnabled after) kept.items
    (fun p inside => by rw [IsEnabled, (old p inside).2.2.1]; exact Iff.rfl)
    fun p inside later => (fresh p inside later).2
  have waiting := count_grow (p := IsWaiting before) (q := IsWaiting after) kept.items
    (fun p inside => by rw [IsWaiting, (old p inside).2.1, (old p inside).2.2.1]; exact Iff.rfl)
    fresh
  have active := kept.active
  have pending := kept.pending
  rw [counted.active] at active
  rw [counted.pending] at pending
  exact ⟨bound, by omega, by omega⟩

/-- Leaving an entry settles it. -/
theorem QueueCounted.settleEntry (counted : QueueCounted afl) (queued : q < afl.queuedItems) :
    QueueCounted (settleEntry afl q) := by
  unfold AflFuzz.settleEntry
  dsimp only
  split
  · rename_i guard
    have waiting : IsWaiting afl q := by
      simp only [Bool.and_eq_true, Bool.not_eq_true'] at guard
      exact ⟨guard.1.2, guard.2⟩
    set after : AflState := { afl.modifyEntry q fun e => { e with wasFuzzed := true } with
      pendingNotFuzzed := u32Pred afl.pendingNotFuzzed
      reinitTable := true
      pendingFavored :=
        if (afl.queueBuf q).favored then u32Pred afl.pendingFavored else afl.pendingFavored
      smallestFavored := if (afl.queueBuf q).favored then -1 else afl.smallestFavored } with settled
    have disabled (p : ℕ) : (after.queueBuf p).disabled = (afl.queueBuf p).disabled :=
      AflState.modifyEntry_keeps afl q (fun e => { e with wasFuzzed := true })
        QueueEntry.disabled rfl p
    have other (p : ℕ) (differ : p ≠ q) : IsWaiting afl p ↔ IsWaiting after p := by
      have same : after.queueBuf p = afl.queueBuf p := by simp [settled, differ]
      rw [IsWaiting, IsWaiting, same]
    have done : ¬ IsWaiting after q := by simp [IsWaiting, settled]
    have one := count_gain queued done waiting fun p _ differ => other p differ
    have few : Nat.count (IsWaiting afl) afl.queuedItems ≤ afl.queuedItems := Nat.count_le _
    have bound := counted.bound
    refine ⟨counted.bound, counted.active.trans (count_congr_below fun p _ => ?_), ?_⟩
    · rw [IsEnabled, IsEnabled, disabled]
    · show u32Pred afl.pendingNotFuzzed = Nat.count (IsWaiting after) afl.queuedItems
      rw [counted.pending, one]
      exact u32Pred_succ (by omega)
  · exact counted

theorem QueueCounted.abandonEntry (counted : QueueCounted afl) (queued : q < afl.queuedItems) :
    QueueCounted (abandonEntry afl q) :=
  (counted.settleEntry queued).of_same (quiet_raiseFuzzLevel _ q).sameActivity

/-- A call of the classic engine keeps the counters right. -/
theorem QueueCounted.fuzzOneOriginal {B : Build} {s t : SaveState} {input : FuzzOneInput}
    (counted : QueueCounted s.afl) (queued : q < s.afl.queuedItems)
    (bound : t.afl.queuedItems < 2 ^ 32) (done : fuzzOneOriginal B s q input = .ok t) :
    QueueCounted t.afl :=
  holds_fuzzOneOriginal queued bound done counted
    (fun _ kept small => counted.of_keepsBooks kept small)
    fun _ grown inside => grown.abandonEntry inside

/-! ## Culling -/

theorem sameActivity_modifyEntry (afl : AflState) (q : ℕ) (change : QueueEntry → QueueEntry)
    (wasFuzzed : (change (afl.queueBuf q)).wasFuzzed = (afl.queueBuf q).wasFuzzed)
    (disabled : (change (afl.queueBuf q)).disabled = (afl.queueBuf q).disabled) :
    SameActivity afl (afl.modifyEntry q change) :=
  ⟨rfl, rfl, rfl, AflState.modifyEntry_keeps afl q change QueueEntry.wasFuzzed wasFuzzed,
    AflState.modifyEntry_keeps afl q change QueueEntry.disabled disabled⟩

theorem sameActivity_markFavored (afl : AflState) (top : ℕ) :
    SameActivity afl (markFavored afl top) := by
  by_cases free : (afl.queueBuf top).favored = false ∧ (afl.queueBuf top).disabled = false
  · have marked := sameActivity_modifyEntry afl top (fun e => { e with favored := true }) rfl rfl
    rw [markFavored_eq free.1 free.2]
    exact ⟨rfl, rfl, rfl, marked.wasFuzzed, marked.disabled⟩
  · rw [markFavored_of_not free]
    exact SameActivity.refl afl

theorem sameActivity_cullIndex (afl : AflState) (i : ℕ) : SameActivity afl (cullIndex afl i) := by
  unfold cullIndex
  split
  · exact SameActivity.refl afl
  · split
    · split
      · exact SameActivity.refl afl
      · have removed (tmp : Buffer) : SameActivity afl { afl with mapTmpBuf := tmp } :=
          ⟨rfl, rfl, rfl, fun _ => rfl, fun _ => rfl⟩
        exact (removed _).trans (sameActivity_markFavored _ _)
    · exact SameActivity.refl afl

theorem cullIndex_disableRedundant (afl : AflState) (i : ℕ) :
    (cullIndex afl i).aflDisableRedundant = afl.aflDisableRedundant := by
  unfold cullIndex markFavored
  dsimp only
  split
  · rfl
  · split
    · split
      · rfl
      · split
        · split <;> rfl
        · rfl
    · rfl

theorem sameActivity_cullMark (allowed : afl.aflDisableRedundant = false) (q : ℕ) :
    SameActivity afl (cullMark afl q) ∧
      (cullMark afl q).aflDisableRedundant = afl.aflDisableRedundant := by
  unfold cullMark
  split
  · unfold markAsRedundant
    split
    · exact ⟨SameActivity.refl afl, rfl⟩
    · exact ⟨sameActivity_modifyEntry afl q _ rfl (by simp [allowed]), rfl⟩
  · exact ⟨SameActivity.refl afl, rfl⟩

theorem sameActivity_cullReset (afl : AflState) : SameActivity afl (cullReset afl) := by
  refine ⟨rfl, rfl, rfl, fun p => ?_, fun p => ?_⟩
  · unfold cullReset
    dsimp only
    split <;> rfl
  · unfold cullReset
    dsimp only
    split <;> rfl

/-- Culling touches the counters only through `AFL_DISABLE_REDUNDANT`, which disables entries. -/
theorem sameActivity_cullQueue (allowed : afl.aflDisableRedundant = false) :
    SameActivity afl (cullQueue afl) := by
  unfold cullQueue
  split
  · exact SameActivity.refl afl
  · have culled : SameActivity afl ((List.range afl.mapSize).foldl cullIndex (cullReset afl)) ∧
        ((List.range afl.mapSize).foldl cullIndex (cullReset afl)).aflDisableRedundant = false :=
      foldl_invariant
        (P := fun t : AflState => SameActivity afl t ∧ t.aflDisableRedundant = false)
        ⟨sameActivity_cullReset afl, allowed⟩ fun i _ t so =>
          ⟨so.1.trans (sameActivity_cullIndex t i), cullIndex_disableRedundant t i ▸ so.2⟩
    set middle := (List.range afl.mapSize).foldl cullIndex (cullReset afl)
    have marked : SameActivity afl ((List.range middle.queuedItems).foldl cullMark middle) ∧
        ((List.range middle.queuedItems).foldl cullMark middle).aflDisableRedundant = false :=
      foldl_invariant
        (P := fun t : AflState => SameActivity afl t ∧ t.aflDisableRedundant = false)
        culled fun q _ t so => by
          have step := sameActivity_cullMark so.2 q
          exact ⟨so.1.trans step.1, step.2.trans so.2⟩
    exact ⟨marked.1.items, marked.1.active, marked.1.pending, marked.1.wasFuzzed,
      marked.1.disabled⟩

/-! ## The dry run -/

/-- In the dry run only seeds that were disabled are marked as fuzzed. -/
structure SeedsCounted (afl : AflState) : Prop extends QueueCounted afl where
  retired : ∀ p < afl.queuedItems,
    (afl.queueBuf p).wasFuzzed = true → (afl.queueBuf p).disabled = true

theorem SeedsCounted.of_same (counted : SeedsCounted before) (same : SameActivity before after) :
    SeedsCounted after where
  toQueueCounted := counted.toQueueCounted.of_same same
  retired p inside := by
    rw [same.items] at inside
    rw [same.wasFuzzed, same.disabled]
    exact counted.retired p inside

/-- Entry `q` was retired and disabled. -/
structure TakesOut (q : ℕ) (before after : AflState) : Prop where
  items : after.queuedItems = before.queuedItems
  active : after.activeItems = u32Pred before.activeItems
  pending : after.pendingNotFuzzed = u32Pred before.pendingNotFuzzed
  fuzzed : (after.queueBuf q).wasFuzzed = true
  disabled : (after.queueBuf q).disabled = true
  others : ∀ p, p ≠ q → (after.queueBuf p).wasFuzzed = (before.queueBuf p).wasFuzzed ∧
    (after.queueBuf p).disabled = (before.queueBuf p).disabled

theorem SameActivity.takesOut (same : SameActivity before middle)
    (out : TakesOut q middle after) : TakesOut q before after where
  items := out.items.trans same.items
  active := by rw [out.active, same.active]
  pending := by rw [out.pending, same.pending]
  fuzzed := out.fuzzed
  disabled := out.disabled
  others p differ := by
    rw [(out.others p differ).1, (out.others p differ).2, same.wasFuzzed, same.disabled]
    exact ⟨rfl, rfl⟩

theorem SeedsCounted.unfuzzed (counted : SeedsCounted afl) (queued : q < afl.queuedItems)
    (enabled : IsEnabled afl q) : (afl.queueBuf q).wasFuzzed = false := by
  by_contra fuzzed
  have disabled := counted.retired q queued (by simpa using fuzzed)
  rw [IsEnabled, disabled] at enabled
  cases enabled

/-- Retiring and disabling a seed takes it out of both counters. -/
theorem SeedsCounted.takeOut (counted : SeedsCounted before) (queued : q < before.queuedItems)
    (enabled : IsEnabled before q) (out : TakesOut q before after) : SeedsCounted after := by
  have unfuzzed := counted.unfuzzed queued enabled
  have bound := counted.bound
  have active := count_gain (p := IsEnabled after) (q := IsEnabled before) queued
    (by simp [IsEnabled, out.disabled]) enabled
    fun p _ differ => by rw [IsEnabled, IsEnabled, (out.others p differ).2]
  have pending := count_gain (p := IsWaiting after) (q := IsWaiting before) queued
    (by simp [IsWaiting, out.disabled]) ⟨unfuzzed, enabled⟩
    fun p _ differ => by
      rw [IsWaiting, IsWaiting, (out.others p differ).1, (out.others p differ).2]
  have few : Nat.count (IsEnabled before) before.queuedItems ≤ before.queuedItems :=
    Nat.count_le _
  have fewer : Nat.count (IsWaiting before) before.queuedItems ≤ before.queuedItems :=
    Nat.count_le _
  refine ⟨⟨out.items ▸ counted.bound, ?_, ?_⟩, fun p inside fuzzed => ?_⟩
  · rw [out.active, out.items, counted.active, active]
    exact u32Pred_succ (by omega)
  · rw [out.pending, out.items, counted.pending, pending]
    exact u32Pred_succ (by omega)
  · by_cases same : p = q
    · rw [same]
      exact out.disabled
    · rw [(out.others p same).1] at fuzzed
      rw [(out.others p same).2]
      exact counted.retired p (out.items ▸ inside) fuzzed

theorem retireEntry_of_unfuzzed (unfuzzed : (afl.queueBuf q).wasFuzzed = false) :
    retireEntry afl q =
      { afl.modifyEntry q fun e => { e with wasFuzzed := true } with
        reinitTable := true
        pendingNotFuzzed := u32Pred afl.pendingNotFuzzed
        activeItems := u32Pred afl.activeItems } := by
  unfold retireEntry
  exact if_pos (by simp [unfuzzed])

/-- A seed that is retired and later disabled is taken out. -/
theorem takesOut_retired (unfuzzed : (afl.queueBuf q).wasFuzzed = false)
    (same : SameActivity (retireEntry afl q) middle) : TakesOut q afl (disableEntry middle q) := by
  rw [retireEntry_of_unfuzzed unfuzzed] at same
  have fuzzed := same.wasFuzzed q
  refine ⟨same.items, same.active, same.pending, ?_, by simp [disableEntry], fun p differ => ?_⟩
  · simpa [disableEntry] using fuzzed
  · have wasFuzzed := same.wasFuzzed p
    have disabled := same.disabled p
    simp only [AflState.modifyEntry_queueBuf, Function.update_of_ne differ] at wasFuzzed disabled
    simp [disableEntry, differ, wasFuzzed, disabled]

theorem takesOut_disabled (unfuzzed : (afl.queueBuf q).wasFuzzed = false) :
    TakesOut q afl (retireEntry (disableEntry afl q) q) := by
  rw [retireEntry_of_unfuzzed (by simp [disableEntry, unfuzzed])]
  refine ⟨rfl, rfl, rfl, by simp, by simp [disableEntry], fun p differ => ?_⟩
  simp [disableEntry, differ]

section Outcomes

variable {B : Build} {opts : DryRunOptions} {seed : SeedInput} {d e : DryRun}

theorem sameActivity_calibrateSeed (B : Build) (opts : DryRunOptions) (seed : SeedInput)
    (queued : q < afl.queuedItems) : SameActivity afl (calibrateSeed B opts seed q afl).2 := by
  have spared : SameActivity afl (spareSeed opts q afl) := by
    unfold spareSeed
    split
    · exact sameActivity_modifyEntry afl q _ rfl rfl
    · exact SameActivity.refl afl
  have still : q < (spareSeed opts q afl).queuedItems := by
    rw [spared.items]
    exact queued
  have calibrated := spared.trans
    (keepsOthers_calibrateCase B.platform seed.calibration still).sameActivity
  unfold calibrateSeed
  dsimp only
  split
  · exact calibrated.trans (sameActivity_modifyEntry _ q _ rfl rfl)
  · exact calibrated

theorem sameActivity_crashingSeedIsNew (B : Build) (afl : AflState) :
    SameActivity afl (crashingSeedIsNew B afl).2 := by
  unfold crashingSeedIsNew
  split
  · exact SameActivity.refl afl
  · exact ((quiet_setTrace afl _).trans (quiet_newToMap B _ .crash)).sameActivity

/-- Whether a crash is new is decided by the trace and by `virgin_crash`. -/
theorem crashingSeedIsNew_fst (B : Build) (afl : AflState) :
    (crashingSeedIsNew B afl).1 =
      (afl.nonInstrumentedMode || decide ((discover B.variant.wordSize.n
        ((afl.realMapSize + (B.variant.wordSize.n - 1)) / B.variant.wordSize.n)
        (simplifyTrace B.variant.wordSize afl.mapSize
          (classifyCounts B.variant.wordSize afl.mapSize afl.traceBits))
        afl.virginCrash).1 ≠ 0)) := by
  unfold crashingSeedIsNew newToMap
  cases mode : afl.nonInstrumentedMode with
  | true => rfl
  | false => rfl

theorem crashingSeedIsNew_retireEntry (B : Build) (afl : AflState) (q : ℕ) :
    (crashingSeedIsNew B (retireEntry afl q)).1 = (crashingSeedIsNew B afl).1 := by
  rw [crashingSeedIsNew_fst, crashingSeedIsNew_fst]
  unfold retireEntry
  split
  · rfl
  · rfl

/-- The block for crashing seeds leaves the case early, before the seed is disabled: the seed
crashes, crashing seeds are saved as new crashes, and `virgin_crash` knows the trace. -/
def KnownCrash (B : Build) (opts : DryRunOptions) (seed : SeedInput) (afl : AflState) (q : ℕ) :
    Prop :=
  let calibrated := calibrateSeed B opts seed q afl
  opts.aflCrashingSeedsAsNewCrash = true ∧ opts.aflExitOnSeedIssues = false ∧
    calibrated.1 = .crash ∧ calibrated.2.stopSoon = false ∧ calibrated.2.crashMode = .ok ∧
    (crashingSeedIsNew B calibrated.2).1 = false

/-- **The outcome of a seed** keeps the counters right, unless the crash is known. -/
theorem SeedsCounted.of_outcome {res : FsrvRunResult} (counted : SeedsCounted before)
    (queued : q < before.queuedItems) (enabled : IsEnabled before q)
    (unknown : res = .crash → opts.aflCrashingSeedsAsNewCrash = true →
      opts.aflExitOnSeedIssues = false → before.crashMode = .ok →
      (crashingSeedIsNew B before).1 = true)
    (outcome : SeedOutcome B opts q res before after) : SeedsCounted after := by
  have unfuzzed := counted.unfuzzed queued enabled
  cases outcome with
  | kept => exact counted
  | failed =>
      have failed := sameActivity_modifyEntry before q (fun e => { e with calFailed := calChances })
        rfl rfl
      exact counted.takeOut queued enabled
        (failed.takesOut (takesOut_disabled ((failed.wasFuzzed q).trans unfuzzed)))
  | timedOut =>
      exact counted.takeOut queued enabled (takesOut_retired unfuzzed (SameActivity.refl _))
  | knownCrash crashed saves stays mode old =>
      have new := unknown crashed saves stays mode
      rw [← crashingSeedIsNew_retireEntry B before q, old] at new
      cases new
  | newCrash =>
      exact counted.takeOut queued enabled
        (takesOut_retired unfuzzed (sameActivity_crashingSeedIsNew B _))
  | crash =>
      have deepest : SameActivity (retireEntry before q) { retireEntry before q with
          maxDepth := deepestEnabled (retireEntry before q) } :=
        ⟨rfl, rfl, rfl, fun _ => rfl, fun _ => rfl⟩
      exact counted.takeOut queued enabled (takesOut_retired unfuzzed deepest)

/-- **One round of the dry run** keeps the counters right, unless the crash is known. -/
theorem SeedsCounted.dryRunEntry (counted : SeedsCounted d.s.afl)
    (queued : q < d.s.afl.queuedItems) (unknown : ¬ KnownCrash B opts seed d.s.afl q)
    (done : dryRunEntry B opts seed d q = .ok e) : SeedsCounted e.s.afl := by
  have same := sameActivity_calibrateSeed B opts seed queued
  have calibrated := counted.of_same same
  rcases dryRunEntry_cases done with skipped | ⟨enabled, stopped | ⟨running, outcome⟩⟩
  · rw [skipped]
    exact counted
  · rw [stopped]
    exact calibrated
  · refine calibrated.of_outcome (queued.trans_eq same.items.symm) ((same.isEnabled q).mpr enabled)
      (fun crashed saves stays mode => ?_) outcome
    by_contra known
    exact unknown ⟨saves, stays, crashed, running, mode, Bool.eq_false_of_not_eq_true known⟩

theorem retireEntry_queuedItems (afl : AflState) (q : ℕ) :
    (retireEntry afl q).queuedItems = afl.queuedItems := by
  unfold retireEntry
  split
  · rfl
  · rfl

theorem SeedOutcome.queuedItems {res : FsrvRunResult}
    (outcome : SeedOutcome B opts q res before after) : after.queuedItems = before.queuedItems := by
  have looked := (sameActivity_crashingSeedIsNew B (retireEntry before q)).items.trans
    (retireEntry_queuedItems before q)
  cases outcome with
  | kept => rfl
  | failed => exact retireEntry_queuedItems _ q
  | timedOut => exact retireEntry_queuedItems before q
  | knownCrash => exact looked
  | newCrash => exact looked
  | crash => exact retireEntry_queuedItems before q

/-- The dry run adds no entries. -/
theorem dryRunEntry_queuedItems (queued : q < d.s.afl.queuedItems)
    (done : dryRunEntry B opts seed d q = .ok e) :
    e.s.afl.queuedItems = d.s.afl.queuedItems := by
  have same := (sameActivity_calibrateSeed B opts seed queued).items
  rcases dryRunEntry_cases done with skipped | ⟨-, stopped | ⟨-, outcome⟩⟩
  · rw [skipped]
  · rw [stopped, same]
  · exact outcome.queuedItems.trans same

end Outcomes

/-! ## Duplicates -/

theorem QueueEntry.comparable.enabled (comparable : (afl.queueBuf q).comparable = true) :
    IsEnabled afl q := by
  simp only [QueueEntry.comparable, Bool.and_eq_true, Bool.not_eq_true'] at comparable
  exact comparable.1.1

/-- The pass over the duplicates keeps the counters right. -/
theorem SeedsCounted.dropDuplicates (counted : SeedsCounted afl) (queue : ℕ) :
    SeedsCounted (dropDuplicates afl queue) := by
  have passed := dropDuplicates_rule
    (P := fun state => SeedsCounted state ∧ state.queuedItems = afl.queuedItems) And.right
    (fun {state q} so inside comparable => by
      have present := QueueEntry.comparable.enabled comparable
      have queued := inside.trans_eq so.2.symm
      have out : TakesOut q state (disableEntry (retireEntry state q) q) :=
        takesOut_retired (so.1.unfuzzed queued present) (SameActivity.refl _)
      exact ⟨so.1.takeOut queued present out, out.items.trans so.2⟩)
    afl ⟨counted, rfl⟩
  unfold AflFuzz.dropDuplicates
  dsimp only
  split
  · exact passed.1.of_same ⟨rfl, rfl, rfl, fun _ => rfl, fun _ => rfl⟩
  · exact passed.1

/-! ## Starting -/

/-- A session that has read its test cases. -/
structure JustRead (afl : AflState) : Prop where
  bound : afl.queuedItems < 2 ^ 32
  active : afl.activeItems = afl.queuedItems
  pending : afl.pendingNotFuzzed = afl.queuedItems
  waiting : ∀ p < afl.queuedItems, IsWaiting afl p

theorem JustRead.counted (read : JustRead afl) : SeedsCounted afl where
  bound := read.bound
  active :=
    read.active.trans (Nat.count_iff_forall.mpr fun p inside => (read.waiting p inside).2).symm
  pending := read.pending.trans (Nat.count_iff_forall.mpr read.waiting).symm
  retired p inside fuzzed := by
    rw [(read.waiting p inside).1] at fuzzed
    cases fuzzed

theorem JustRead.of_same (read : JustRead before) (same : SameActivity before after) :
    JustRead after where
  bound := same.items ▸ read.bound
  active := by rw [same.active, same.items, read.active]
  pending := by rw [same.pending, same.items, read.pending]
  waiting p inside := (same.isWaiting p).mpr (read.waiting p (same.items ▸ inside))

theorem JustRead.addToQueue (read : JustRead afl) (len : ℕ) (passedDet : Bool)
    (bound : afl.queuedItems + 1 < 2 ^ 32) : JustRead (addToQueue afl len passedDet) := by
  have grown := grows_addToQueue afl len passedDet
  refine ⟨bound, congrArg (· + 1) read.active, congrArg (· + 1) read.pending, fun p inside => ?_⟩
  by_cases early : p < afl.queuedItems
  · have marks := marks_eq_iff.mp (grown.old p early)
    exact ⟨marks.2.1.trans (read.waiting p early).1, marks.2.2.1.trans (read.waiting p early).2⟩
  · have marks := grown.fresh p inside (Nat.le_of_not_lt early)
    simp only [QueueEntry.marks, Marks.mk.injEq] at marks
    exact ⟨marks.2.1, marks.2.2.1⟩

/-- A fast resume counts the marks of the records. -/
theorem JustRead.resumed (read : JustRead afl) (s : AflState) : QueueCounted (resumed s afl) := by
  set start : AflState := { afl with
    virginBits := s.virginBits
    virginTmout := s.virginTmout
    virginCrash := s.virginCrash
    varBytes := s.varBytes }
  have entries := restoredUpTo_restoreAll s.queueBuf afl.queuedItems start
  have counts : (restoreAll s.queueBuf afl.queuedItems start).activeItems +
        Nat.count (fun i => (s.queueBuf i).disabled = true) afl.queuedItems = afl.queuedItems ∧
      (restoreAll s.queueBuf afl.queuedItems start).pendingNotFuzzed +
        Nat.count (fun i => (s.queueBuf i).wasFuzzed = true ∨ (s.queueBuf i).disabled = true)
          afl.queuedItems = afl.queuedItems := by
    refine foldl_range_invariant (P := fun i (t : AflState) =>
      t.activeItems + Nat.count (fun i => (s.queueBuf i).disabled = true) i = afl.queuedItems ∧
        t.pendingNotFuzzed +
          Nat.count (fun i => (s.queueBuf i).wasFuzzed = true ∨ (s.queueBuf i).disabled = true) i =
          afl.queuedItems) ?_ fun i inside t so => ?_
    · exact ⟨read.active, read.pending⟩
    · obtain ⟨-, -, pending, active⟩ := restoreRecord_counters s.queueBuf t i
      have few : Nat.count (fun i => (s.queueBuf i).disabled = true) i ≤ i := Nat.count_le _
      have fewer : Nat.count (fun i => (s.queueBuf i).wasFuzzed = true ∨
        (s.queueBuf i).disabled = true) i ≤ i := Nat.count_le _
      have bound := read.bound
      rw [pending, active, Nat.count_succ, Nat.count_succ]
      constructor
      · split
        · rw [u32Pred_eq_sub (by omega) (by omega)]
          omega
        · omega
      · split
        · rw [u32Pred_eq_sub (by omega) (by omega)]
          omega
        · omega
  set final := restoreAll s.queueBuf afl.queuedItems start
  have items : final.queuedItems = afl.queuedItems := entries.queuedItems
  have enabled : Nat.count (IsEnabled final) afl.queuedItems +
      Nat.count (fun i => (s.queueBuf i).disabled = true) afl.queuedItems = afl.queuedItems := by
    refine count_compl fun p inside => ?_
    rw [IsEnabled, entries.read p inside]
    exact (Bool.not_eq_true _).symm.to_iff
  have waiting : Nat.count (IsWaiting final) afl.queuedItems +
      Nat.count (fun i => (s.queueBuf i).wasFuzzed = true ∨ (s.queueBuf i).disabled = true)
        afl.queuedItems = afl.queuedItems := by
    refine count_compl fun p inside => ?_
    rw [IsWaiting, entries.read p inside, not_or, Bool.not_eq_true, Bool.not_eq_true]
    exact Iff.rfl
  refine ⟨items ▸ read.bound, ?_, ?_⟩
  · show final.activeItems = Nat.count (IsEnabled final) final.queuedItems
    rw [items]
    omega
  · show final.pendingNotFuzzed = Nat.count (IsWaiting final) final.queuedItems
    rw [items]
    omega

/-! ## Runs -/

/-- Where a session is. -/
inductive Stage where
  | reading
  | dryRun (opts : DryRunOptions) (todo : List ℕ)
  | fuzzing

structure QueueSession where
  stage : Stage
  d : DryRun

/-- What can happen to a session. `allowed` restricts the rounds of the dry run. -/
inductive QueueStep (B : Build) (allowed : DryRunOptions → SeedInput → AflState → ℕ → Prop) :
    QueueSession → QueueSession → Prop where
  | read (d : DryRun) (len : ℕ) (passedDet : Bool) (bound : d.s.afl.queuedItems + 1 < 2 ^ 32) :
      QueueStep B allowed ⟨.reading, d⟩ ⟨.reading, d.withAfl (addToQueue d.s.afl len passedDet)⟩
  | startDryRun (d : DryRun) (opts : DryRunOptions) :
      QueueStep B allowed ⟨.reading, d⟩
        ⟨.dryRun opts (dryRunOrder opts d.s.afl.queuedItems), d⟩
  | dryRun {d e : DryRun} {opts : DryRunOptions} {q : ℕ} {rest : List ℕ} (seed : SeedInput)
      (may : allowed opts seed d.s.afl q) (done : dryRunEntry B opts seed d q = .ok e) :
      QueueStep B allowed ⟨.dryRun opts (q :: rest), d⟩
        ⟨if e.stopped then .fuzzing else .dryRun opts rest, e⟩
  | dropDuplicates (d : DryRun) (opts : DryRunOptions) :
      QueueStep B allowed ⟨.dryRun opts [], d⟩
        ⟨.fuzzing, d.withAfl (dropDuplicates d.s.afl d.queue)⟩
  | resume {d : DryRun} {afl : AflState} (saved : AflState)
      (done : fastResume B.libm d.s.afl (writeFastresume saved) = .ok afl) :
      QueueStep B allowed ⟨.reading, d⟩ ⟨.fuzzing, d.withAfl afl⟩
  | skipDryRun (d : DryRun) : QueueStep B allowed ⟨.reading, d⟩ ⟨.fuzzing, d⟩
  | add (d : DryRun) (len : ℕ) (passedDet : Bool) (bound : d.s.afl.queuedItems + 1 < 2 ^ 32) :
      QueueStep B allowed ⟨.fuzzing, d⟩ ⟨.fuzzing, d.withAfl (addToQueue d.s.afl len passedDet)⟩
  | find {d : DryRun} {t : SaveState} {kept : Bool} (input : SaveInput)
      (saved : saveIfInteresting B d.s input = .ok (kept, t))
      (bound : t.afl.queuedItems < 2 ^ 32) :
      QueueStep B allowed ⟨.fuzzing, d⟩ ⟨.fuzzing, { d with s := t }⟩
  | fuzz {d : DryRun} {t : SaveState} (q : ℕ) (input : FuzzOneInput)
      (queued : q < d.s.afl.queuedItems) (fuzzed : fuzzOneOriginal B d.s q input = .ok t)
      (bound : t.afl.queuedItems < 2 ^ 32) :
      QueueStep B allowed ⟨.fuzzing, d⟩ ⟨.fuzzing, { d with s := t }⟩
  | cull (d : DryRun) (keeps : d.s.afl.aflDisableRedundant = false) :
      QueueStep B allowed ⟨.fuzzing, d⟩ ⟨.fuzzing, d.withAfl (cullQueue d.s.afl)⟩
  | other {stage : Stage} {d e : DryRun} (same : SameActivity d.s.afl e.s.afl) :
      QueueStep B allowed ⟨stage, d⟩ ⟨stage, e⟩

/-- Sessions start with an empty queue. -/
def queueSystem (B : Build) (allowed : DryRunOptions → SeedInput → AflState → ℕ → Prop) :
    TransitionSystem QueueSession where
  init session := session.stage = .reading ∧ session.d.s.afl.queuedItems = 0 ∧
    session.d.s.afl.activeItems = 0 ∧ session.d.s.afl.pendingNotFuzzed = 0
  step := QueueStep B allowed

section DryRunIsARun

variable {B : Build} {allowed : DryRunOptions → SeedInput → AflState → ℕ → Prop}
  {opts : DryRunOptions} {d e : DryRun} {q : ℕ} {rest : List ℕ}

theorem reachable_dryRunEntry (seed : SeedInput)
    (before : Reachable (queueSystem B allowed) ⟨.dryRun opts (q :: rest), d⟩)
    (may : allowed opts seed d.s.afl q) (done : dryRunEntry B opts seed d q = .ok e)
    (goes : e.stopped = false) : Reachable (queueSystem B allowed) ⟨.dryRun opts rest, e⟩ := by
  have taken := before.step (QueueStep.dryRun seed may done)
  rwa [if_neg (by rw [goes]; decide)] at taken

/-- The loop over the seeds is a run of its rounds. -/
theorem reachable_dryRunLoop (may : ∀ opts seed afl q, allowed opts seed afl q)
    {seeds : ℕ → SeedInput} {todo : List ℕ}
    (before : Reachable (queueSystem B allowed) ⟨.dryRun opts todo, d⟩) (goes : d.stopped = false)
    (done : dryRunLoop B opts seeds d todo = .ok e) :
    Reachable (queueSystem B allowed) ⟨if e.stopped then .fuzzing else .dryRun opts [], e⟩ := by
  induction todo generalizing d with
  | nil =>
      cases done
      rwa [if_neg (by rw [goes]; decide)]
  | cons q rest ih =>
      obtain ⟨middle, round, loop⟩ := bind_eq_ok_iff.mp done
      split at loop
      · rename_i stopped
        cases loop
        have taken := before.step (QueueStep.dryRun (seeds q) (may _ _ _ _) round)
        rw [if_pos stopped] at taken ⊢
        exact taken
      · rename_i running
        have still : middle.stopped = false := by simpa using running
        exact ih (reachable_dryRunEntry (seeds q) before (may _ _ _ _) round still) still loop

/-- `perform_dry_run` is a run of its rounds and of the pass over the duplicates. -/
theorem reachable_performDryRun (may : ∀ opts seed afl q, allowed opts seed afl q)
    (opts : DryRunOptions) (seeds : ℕ → SeedInput)
    (before : Reachable (queueSystem B allowed) ⟨.reading, d⟩)
    (goes : d.stopped = false) (done : performDryRun B opts seeds d = .ok e) :
    Reachable (queueSystem B allowed) ⟨.fuzzing, e⟩ := by
  unfold performDryRun at done
  split at done
  · cases done
  · obtain ⟨looped, loop, rest⟩ := bind_eq_ok_iff.mp done
    have reached := reachable_dryRunLoop may (before.step (QueueStep.startDryRun d opts)) goes loop
    split at rest
    · rename_i stopped
      cases rest
      rwa [if_pos stopped] at reached
    · rename_i running
      rw [if_neg running] at reached
      split at rest
      · cases rest
      · cases rest
        exact reached.step (QueueStep.dropDuplicates looped opts)

end DryRunIsARun

/-- What holds at each stage. -/
def QueueSession.Sound (session : QueueSession) : Prop :=
  match session.stage with
  | .reading => JustRead session.d.s.afl
  | .dryRun _ todo => SeedsCounted session.d.s.afl ∧ ∀ q ∈ todo, q < session.d.s.afl.queuedItems
  | .fuzzing => QueueCounted session.d.s.afl

theorem QueueSession.Sound.counted {session : QueueSession} (sound : session.Sound) :
    QueueCounted session.d.s.afl := by
  obtain ⟨stage, d⟩ := session
  cases stage with
  | reading => exact (JustRead.counted sound).toQueueCounted
  | dryRun opts todo => exact sound.1.toQueueCounted
  | fuzzing => exact sound

theorem QueueSession.Sound.of_same {stage : Stage} {d e : DryRun}
    (sound : QueueSession.Sound ⟨stage, d⟩) (same : SameActivity d.s.afl e.s.afl) :
    QueueSession.Sound ⟨stage, e⟩ := by
  cases stage with
  | reading => exact JustRead.of_same sound same
  | dryRun opts todo =>
      refine ⟨sound.1.of_same same, fun q member => ?_⟩
      show q < e.s.afl.queuedItems
      rw [same.items]
      exact sound.2 q member
  | fuzzing => exact QueueCounted.of_same sound same

theorem mem_dryRunOrder {opts : DryRunOptions} {n : ℕ} (member : q ∈ dryRunOrder opts n) :
    q < n := by
  unfold dryRunOrder at member
  split at member
  · exact List.mem_range.mp (List.mem_reverse.mp member)
  · exact List.mem_range.mp member

/-- **One step keeps the counters right**, if no round of the dry run meets a known crash. -/
theorem QueueStep.sound {B : Build} {s t : QueueSession} (sound : s.Sound)
    (taken : QueueStep B (fun opts seed afl q => ¬ KnownCrash B opts seed afl q) s t) :
    t.Sound := by
  cases taken with
  | read d len passedDet bound => exact JustRead.addToQueue sound len passedDet bound
  | startDryRun d opts => exact ⟨JustRead.counted sound, fun q member => mem_dryRunOrder member⟩
  | @dryRun d e opts q rest seed may done =>
      have queued : q < d.s.afl.queuedItems := sound.2 q List.mem_cons_self
      have counted := sound.1.dryRunEntry queued may done
      split
      · exact counted.toQueueCounted
      · refine ⟨counted, fun p member => ?_⟩
        show p < e.s.afl.queuedItems
        rw [dryRunEntry_queuedItems queued done]
        exact sound.2 p (List.mem_cons_of_mem q member)
  | dropDuplicates d opts => exact (sound.1.dropDuplicates d.queue).toQueueCounted
  | @resume d afl saved done =>
      rw [fastResume_writeFastresume] at done
      split at done
      · cases done
        exact JustRead.resumed sound saved
      · split at done
        · cases done
        · cases done
  | skipDryRun d => exact (JustRead.counted sound).toQueueCounted
  | add d len passedDet bound =>
      exact QueueCounted.of_keepsBooks sound (grows_addToQueue d.s.afl len passedDet).toKeepsBooks
        bound
  | find input saved bound =>
      exact QueueCounted.of_keepsBooks sound (grows_saveIfInteresting saved).toKeepsBooks bound
  | fuzz q input queued fuzzed bound =>
      exact QueueCounted.fuzzOneOriginal sound queued bound fuzzed
  | cull d keeps => exact QueueCounted.of_same sound (sameActivity_cullQueue keeps)
  | other same => exact sound.of_same same

/-- **The counters of the queue are right** in every state of every run in which no round of the
dry run meets a known crash. -/
theorem queue_counters_of_reachable (B : Build) (session : QueueSession)
    (run : Reachable
      (queueSystem B fun opts seed afl q => ¬ KnownCrash B opts seed afl q) session) :
    session.d.s.afl.activeItems =
        Nat.count (IsEnabled session.d.s.afl) session.d.s.afl.queuedItems ∧
      session.d.s.afl.pendingNotFuzzed =
        Nat.count (IsWaiting session.d.s.afl) session.d.s.afl.queuedItems := by
  have sound : session.Sound := by
    refine run.invariant (P := QueueSession.Sound) ?_ fun s t _ sound taken =>
      QueueStep.sound sound taken
    rintro ⟨stage, d⟩ ⟨rfl, items, active, pending⟩
    refine ⟨?_, ?_, ?_, fun p inside => ?_⟩
    · show d.s.afl.queuedItems < 2 ^ 32
      rw [show d.s.afl.queuedItems = 0 from items]
      decide
    · exact active.trans items.symm
    · exact pending.trans items.symm
    · rw [show d.s.afl.queuedItems = 0 from items] at inside
      cases inside
  exact ⟨sound.counted.active, sound.counted.pending⟩

/-- Two seeds that were read. -/
def twoSeeds : DryRun :=
  { s := { afl := addToQueue (addToQueue { mapSize := 8 } 1 false) 1 false } }

/-- A seed whose run crashes. -/
def crashingSeed : SeedInput :=
  { calibration := { runs := fun _ =>
      { fault := .crash, trace := fun i => if i = 0 then 1 else 0 } } }

def crashesAreNew : DryRunOptions := { aflCrashingSeedsAsNewCrash := true }

theorem twoSeeds_reachable (allowed : DryRunOptions → SeedInput → AflState → ℕ → Prop) :
    Reachable (queueSystem trivialBuild allowed) ⟨.reading, twoSeeds⟩ := by
  have empty : Reachable (queueSystem trivialBuild allowed)
      ⟨.reading, { s := { afl := { mapSize := 8 } } }⟩ := Reachable.init ⟨rfl, rfl, rfl, rfl⟩
  have first := empty.step (QueueStep.read _ 1 false (by decide))
  exact first.step (QueueStep.read _ 1 false (by decide))

/-- The first crash is new, and the counters are right after it. -/
theorem queue_counters_new_crash :
    ∃ e, dryRunEntry trivialBuild crashesAreNew crashingSeed twoSeeds 0 = .ok e ∧
      e.s.afl.activeItems = Nat.count (IsEnabled e.s.afl) e.s.afl.queuedItems ∧
      e.s.afl.activeItems = 1 := by
  refine ⟨_, rfl, ?_, by decide +kernel⟩
  have started := (twoSeeds_reachable fun opts seed afl q =>
    ¬ KnownCrash trivialBuild opts seed afl q).step (QueueStep.startDryRun twoSeeds crashesAreNew)
  refine (queue_counters_of_reachable trivialBuild ⟨.dryRun crashesAreNew [1], _⟩
    (reachable_dryRunEntry crashingSeed started ?_ rfl rfl)).1
  rintro ⟨-, -, -, -, -, known⟩
  exact absurd known (by decide +kernel)

/-- Two seeds that crash with the same trace: the second one stays enabled but is no longer
counted. -/
theorem queue_counters_known_crash :
    ∃ e, performDryRun trivialBuild crashesAreNew (fun _ => crashingSeed) twoSeeds = .ok e ∧
      Reachable (queueSystem trivialBuild fun _ _ _ _ => True) ⟨.fuzzing, e⟩ ∧
      e.s.afl.activeItems = 0 ∧ Nat.count (IsEnabled e.s.afl) e.s.afl.queuedItems = 1 :=
  ⟨_, rfl, reachable_performDryRun (fun _ _ _ _ => trivial) crashesAreNew (fun _ => crashingSeed)
      (twoSeeds_reachable _) rfl rfl,
    by decide +kernel, by decide +kernel⟩

end GreenFuzz.AflFuzz
