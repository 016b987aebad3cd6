import GreenFuzz.AflFuzz.Splicing
import GreenFuzz.Library.Inevitable

/-!
# The seeds that the dry run visits

The main loop of `perform_dry_run` moves its index at the bottom of the body when
it goes forward and at the top when it resumes in place, and leaves the body by
`continue` where an entry is disabled or empty. `DryRun` takes the order of the
visits as given. Here the loop is stepped through with its index, and the entries
that were calibrated are recorded.

Going forward, `continue` skips the update of the index, and the same entry is
looked at for ever. Going backward it skips the test for the last entry, and the
index wraps around below entry 0. **As long as no result ends the program, the loop
comes to an end, stays inside the queue and calibrates every enabled, non-empty
entry exactly once if and only if the queue is not empty and, going forward, all
entries are enabled and non-empty, or, going backward, entry 0 is**
(`dry_run_visits_iff`).
-/

set_option autoImplicit false

namespace GreenFuzz.AflFuzz

open Library

/-! ## The loop -/

/-- The variables of the main loop, and the entries that were calibrated. -/
structure DryRunScan where
  d : DryRun
  idx : ℕ
  done : Bool := false
  calibrated : List ℕ := []

section Loop

variable (B : Build) (opts : DryRunOptions) (seeds : ℕ → SeedInput)

/-- Before the first round. -/
def dryRunStart (d : DryRun) : DryRunScan :=
  { d := { d with stopped := false }
    idx := if opts.inPlaceResume then d.s.afl.queuedItems else 0 }

/-- The index that a round reads `queue_buf` at. -/
def DryRunScan.nextIdx (l : DryRunScan) : ℕ :=
  if opts.inPlaceResume then u32Pred l.idx else l.idx

/-- The loop was left at its bottom, or by `return`. -/
def DryRunScan.ended (l : DryRunScan) : Bool := l.done || l.d.stopped

/-- The end of the body: the new index, and `done`. -/
def advanceIdx (queuedItems idx : ℕ) : ℕ × Bool :=
  if !opts.inPlaceResume then (u32 (idx + 1), queuedItems ≤ u32 (idx + 1)) else (idx, idx = 0)

/-- One round. Reading `queue_buf` outside the queue is the fault `lost`. -/
def dryRunRound (l : DryRunScan) : Except DryRunFault DryRunScan :=
  let idx := l.nextIdx opts
  let afl := l.d.s.afl
  if afl.queuedItems ≤ idx then .error .lost
  else if (afl.queueBuf idx).disabled ∨ (afl.queueBuf idx).len = 0 then .ok { l with idx := idx }
  else
    let calibrated := calibrateSeed B opts (seeds idx) idx afl
    let d := l.d.withAfl calibrated.2
    let l := { l with d := d, idx := idx, calibrated := idx :: l.calibrated }
    if d.s.afl.stopSoon then .ok { l with d := { d with stopped := true } }
    else do
      let d ← dryRunResult B opts (seeds idx) d idx calibrated.1
      let next := advanceIdx opts d.s.afl.queuedItems idx
      .ok { l with d := d, idx := next.1, done := next.2 }

/-- The runs of the loop. -/
def dryRunScans (d : DryRun) : TransitionSystem DryRunScan where
  init l := l = dryRunStart opts d
  step l m := l.ended = false ∧ dryRunRound B opts seeds l = .ok m

end Loop

/-! ## What is claimed of it -/

/-- An entry that the loop should calibrate. -/
def Calibratable (afl : AflState) (q : ℕ) : Prop :=
  (afl.queueBuf q).disabled = false ∧ (afl.queueBuf q).len ≠ 0

/-- No calibration ends the program, and nobody stops it. -/
def GoesOn (B : Build) (opts : DryRunOptions) (seeds : ℕ → SeedInput) (d : DryRun) : Prop :=
  ∀ l, Reachable (dryRunScans B opts seeds d) l → l.ended = false →
    dryRunRound B opts seeds l ≠ .error .fatal ∧
    ∀ m, dryRunRound B opts seeds l = .ok m → m.d.stopped = false

/-- The loop comes to an end, reads no entry outside the queue, and at its end has calibrated
every enabled, non-empty entry exactly once. -/
def DryRunVisits (B : Build) (opts : DryRunOptions) (seeds : ℕ → SeedInput) (d : DryRun) : Prop :=
  Inevitable (dryRunScans B opts seeds d).step (fun l => l.done = true) (dryRunStart opts d) ∧
  ∀ l, Reachable (dryRunScans B opts seeds d) l →
    (l.done = false → l.nextIdx opts < d.s.afl.queuedItems) ∧
    (l.done = true → l.calibrated.Nodup ∧
      ∀ q, q ∈ l.calibrated ↔ q < d.s.afl.queuedItems ∧ Calibratable d.s.afl q)

/-! ## What a round leaves alone -/

/-- The queue has as many entries as before, of the same lengths, and entry `q` is the only one
that may have been disabled. -/
structure ScansOnly (q : ℕ) (before after : AflState) : Prop where
  items : after.queuedItems = before.queuedItems
  len : ∀ p, (after.queueBuf p).len = (before.queueBuf p).len
  disabled : ∀ p, p ≠ q → (after.queueBuf p).disabled = (before.queueBuf p).disabled

variable {B : Build} {opts : DryRunOptions} {seeds : ℕ → SeedInput} {seed : SeedInput}
  {d e : DryRun} {afl before middle after : AflState} {q : ℕ}

theorem ScansOnly.refl (afl : AflState) (q : ℕ) : ScansOnly q afl afl :=
  ⟨rfl, fun _ => rfl, fun _ _ => rfl⟩

theorem ScansOnly.trans (first : ScansOnly q before middle) (second : ScansOnly q middle after) :
    ScansOnly q before after where
  items := second.items.trans first.items
  len p := (second.len p).trans (first.len p)
  disabled p other := (second.disabled p other).trans (first.disabled p other)

/-- A change of entry `q` that keeps its length. -/
theorem scansOnly_modifyEntry (afl : AflState) (q : ℕ) (change : QueueEntry → QueueEntry)
    (keeps : (change (afl.queueBuf q)).len = (afl.queueBuf q).len) :
    ScansOnly q afl (afl.modifyEntry q change) where
  items := rfl
  len := AflState.modifyEntry_keeps afl q change QueueEntry.len keeps
  disabled p other := by rw [AflState.modifyEntry_queueBuf_of_ne _ _ _ other]

theorem scansOnly_retireEntry (afl : AflState) (q : ℕ) : ScansOnly q afl (retireEntry afl q) := by
  simp only [retireEntry]
  split
  · have marked := scansOnly_modifyEntry afl q (fun e => { e with wasFuzzed := true }) rfl
    exact ⟨marked.items, marked.len, marked.disabled⟩
  · exact ScansOnly.refl afl q

theorem scansOnly_disableEntry (afl : AflState) (q : ℕ) :
    ScansOnly q afl (disableEntry afl q) :=
  scansOnly_modifyEntry afl q _ rfl

theorem scansOnly_calibrateSeed (queued : q < afl.queuedItems) :
    ScansOnly q afl (calibrateSeed B opts seed q afl).2 := by
  have same := sameActivity_calibrateSeed B opts seed queued
  refine ⟨same.items, fun p => ?_, fun p _ => same.disabled p⟩
  have spared : ((spareSeed opts q afl).queueBuf p).len = (afl.queueBuf p).len := by
    simp only [spareSeed]
    split
    · exact AflState.modifyEntry_keeps afl q (fun e => { e with colorized := cmplogLvlMax })
        QueueEntry.len rfl p
    · rfl
  have calibrated := (sameSplicing_calibrateCase B.platform (spareSeed opts q afl) q
    seed.calibration).len p
  simp only [calibrateSeed]
  split
  · exact (AflState.modifyEntry_keeps _ q _ QueueEntry.len rfl p).trans (calibrated.trans spared)
  · exact calibrated.trans spared

theorem scansOnly_crashingSeedIsNew (B : Build) (afl : AflState) (q : ℕ) :
    ScansOnly q afl (crashingSeedIsNew B afl).2 := by
  have same := sameActivity_crashingSeedIsNew B afl
  refine ⟨same.items, fun p => ?_, fun p _ => same.disabled p⟩
  simp only [crashingSeedIsNew, newToMap]
  split
  · rfl
  · simp only [hasNewBits]
    split <;> rfl

/-- **The switch over the result of a calibration** concerns the calibrated entry only. -/
theorem SeedOutcome.scansOnly {res : FsrvRunResult} {before after : AflState}
    (outcome : SeedOutcome B opts q res before after) : ScansOnly q before after := by
  have retired := scansOnly_retireEntry before q
  have looked := retired.trans (scansOnly_crashingSeedIsNew B (retireEntry before q) q)
  cases outcome with
  | kept => exact ScansOnly.refl _ q
  | failed =>
      have failed := scansOnly_modifyEntry before q
        (fun e => { e with calFailed := calChances }) rfl
      exact failed.trans ((scansOnly_disableEntry _ q).trans (scansOnly_retireEntry _ q))
  | timedOut => exact retired.trans (scansOnly_disableEntry _ q)
  | knownCrash => exact looked
  | newCrash => exact looked.trans (scansOnly_disableEntry _ q)
  | crash =>
      have deepest : ScansOnly q (retireEntry before q) { retireEntry before q with
          maxDepth := deepestEnabled (retireEntry before q) } :=
        ⟨rfl, fun _ => rfl, fun _ _ => rfl⟩
      exact (retired.trans deepest).trans (scansOnly_disableEntry _ q)

/-- The switch over the result fails with `FATAL` only. -/
theorem dryRunResult_error {res : FsrvRunResult} {fault : DryRunFault}
    (failed : dryRunResult B opts seed d q res = .error fault) : fault = .fatal := by
  simp only [dryRunResult] at failed
  split at failed
  · split at failed <;> cases failed
    rfl
  · simp only [dryRunTimeout] at failed
    split at failed
    · cases failed
    · split at failed <;> cases failed
      rfl
  · simp only [dryRunCrash] at failed
    split at failed
    · cases failed
    · split at failed
      · cases failed
        rfl
      · split at failed
        · rw [crashingSeedAsNewCrash] at failed
          dsimp only at failed
          split at failed
          · cases failed
          · split at failed <;> cases failed
            rfl
        · cases failed
  · cases failed
    rfl
  · cases failed
    rfl
  · cases failed

/-! ## One round -/

variable {l m : DryRunScan} {start : AflState}

/-- What a round that is not stopped does. -/
theorem dryRunRound_cases (round : dryRunRound B opts seeds l = .ok m)
    (running : m.d.stopped = false) :
    l.nextIdx opts < l.d.s.afl.queuedItems ∧
      ((¬ Calibratable l.d.s.afl (l.nextIdx opts) ∧ m = { l with idx := l.nextIdx opts }) ∨
        (Calibratable l.d.s.afl (l.nextIdx opts) ∧
          ScansOnly (l.nextIdx opts) l.d.s.afl m.d.s.afl ∧
          m.calibrated = l.nextIdx opts :: l.calibrated ∧
          (m.idx, m.done) = advanceIdx opts l.d.s.afl.queuedItems (l.nextIdx opts))) := by
  rw [dryRunRound] at round
  dsimp only at round
  split at round
  · cases round
  · rename_i inside
    have inside := Nat.lt_of_not_le inside
    refine ⟨inside, ?_⟩
    split at round
    · rename_i skipped
      cases round
      refine .inl ⟨fun calibratable => ?_, rfl⟩
      rcases skipped with off | empty
      · exact absurd (off.symm.trans calibratable.1) (by decide)
      · exact calibratable.2 empty
    · rename_i kept
      push Not at kept
      split at round
      · cases round
        cases running
      · obtain ⟨e, done, rest⟩ := bind_eq_ok_iff.mp round
        cases rest
        have calibrated : ScansOnly (l.nextIdx opts) l.d.s.afl (calibrateSeed B opts
            (seeds (l.nextIdx opts)) (l.nextIdx opts) l.d.s.afl).2 :=
          scansOnly_calibrateSeed inside
        have scans := calibrated.trans (dryRunResult_cases done).scansOnly
        refine .inr ⟨⟨Bool.eq_false_of_not_eq_true kept.1, kept.2⟩, scans, rfl, ?_⟩
        rw [scans.items]

/-- The entries that the index has passed. -/
def Visited (opts : DryRunOptions) (items idx q : ℕ) : Prop :=
  if opts.inPlaceResume then idx ≤ q ∧ q < items else q < idx

/-- The invariant of the loop: what the index has passed was calibrated, and what lies ahead is
as it was. -/
structure DryRunScanned (opts : DryRunOptions) (start : AflState) (l : DryRunScan) : Prop where
  items : l.d.s.afl.queuedItems = start.queuedItems
  len : ∀ p, (l.d.s.afl.queueBuf p).len = (start.queueBuf p).len
  ahead : ∀ p, ¬ Visited opts start.queuedItems l.idx p → p < start.queuedItems →
    (l.d.s.afl.queueBuf p).disabled = (start.queueBuf p).disabled
  inside : l.idx ≤ start.queuedItems
  nodup : l.calibrated.Nodup
  mem : ∀ q, q ∈ l.calibrated ↔
    Visited opts start.queuedItems l.idx q ∧ Calibratable start q
  finished : l.done = true → ∀ q < start.queuedItems, Visited opts start.queuedItems l.idx q

/-- What lies ahead is calibrated if it was to be calibrated at the start. -/
theorem DryRunScanned.calibratable_iff (scanned : DryRunScanned opts start l) {k : ℕ}
    (unvisited : ¬ Visited opts start.queuedItems l.idx k) (inside : k < start.queuedItems) :
    Calibratable l.d.s.afl k ↔ Calibratable start k := by
  rw [Calibratable, scanned.ahead k unvisited inside, scanned.len]
  exact Iff.rfl

theorem u32Pred_zero_ge {n : ℕ} (bound : n < 2 ^ 32) : n ≤ u32Pred 0 := by
  have top : u32Pred 0 = 2 ^ 32 - 1 := by decide
  omega

/-- Going forward, the next index is the index. -/
theorem nextIdx_forward (inPlace : opts.inPlaceResume = false) : l.nextIdx opts = l.idx := by
  simp only [DryRunScan.nextIdx, inPlace, Bool.false_eq_true, if_false]

/-- The next index lies just ahead. -/
theorem nextIdx_ahead {items : ℕ} (bound : items < 2 ^ 32) (inside : l.idx ≤ items)
    (next : l.nextIdx opts < items) :
    ¬ Visited opts items l.idx (l.nextIdx opts) ∧
      ∀ q, Visited opts items
        (if opts.inPlaceResume then l.nextIdx opts else l.nextIdx opts + 1) q ↔
        (Visited opts items l.idx q ∨ q = l.nextIdx opts) := by
  simp only [Visited, DryRunScan.nextIdx] at next ⊢
  cases inPlace : opts.inPlaceResume with
  | true =>
      simp only [inPlace, if_true] at next ⊢
      have positive : l.idx ≠ 0 := by
        intro zero
        rw [zero] at next
        exact absurd (u32Pred_zero_ge bound) (Nat.not_le.mpr next)
      have pred : u32Pred l.idx = l.idx - 1 :=
        u32Pred_eq_sub (Nat.pos_of_ne_zero positive) (by omega)
      rw [pred] at next ⊢
      refine ⟨by omega, fun q => by omega⟩
  | false =>
      simp only [Bool.false_eq_true, if_false]
      exact ⟨by omega, fun q => by omega⟩

theorem scanned_start (opts : DryRunOptions) (d : DryRun) :
    DryRunScanned opts d.s.afl (dryRunStart opts d) := by
  have none : ∀ q, ¬ Visited opts d.s.afl.queuedItems (dryRunStart opts d).idx q := by
    intro q
    simp only [Visited, dryRunStart]
    split <;> omega
  refine ⟨rfl, fun _ => rfl, fun _ _ _ => rfl, ?_, List.nodup_nil, fun q => ?_, nofun⟩
  · simp only [dryRunStart]
    split <;> omega
  · exact iff_of_false List.not_mem_nil fun visited => none q visited.1

/-- The end of the body, without overflow. -/
theorem advanceIdx_eq (opts : DryRunOptions) {items idx : ℕ} (inside : idx < items)
    (bound : items < 2 ^ 32) :
    advanceIdx opts items idx =
      if opts.inPlaceResume then (idx, decide (idx = 0))
      else (idx + 1, decide (items ≤ idx + 1)) := by
  have small : u32 (idx + 1) = idx + 1 := Nat.mod_eq_of_lt (by omega)
  simp only [advanceIdx, small]
  cases opts.inPlaceResume with
  | true => rfl
  | false => rfl

/-- **A round keeps the invariant.** -/
theorem DryRunScanned.round (scanned : DryRunScanned opts start l)
    (bound : start.queuedItems < 2 ^ 32)
    (round : dryRunRound B opts seeds l = .ok m) (goesOn : l.done = false)
    (running : m.d.stopped = false) : DryRunScanned opts start m := by
  obtain ⟨inside, moved⟩ := dryRunRound_cases round running
  rw [scanned.items] at inside
  obtain ⟨ahead, visits⟩ := nextIdx_ahead bound scanned.inside inside
  have fresh : l.nextIdx opts ∉ l.calibrated := fun member =>
    ahead ((scanned.mem _).mp member).1
  rcases moved with ⟨skipped, rfl⟩ | ⟨calibratable, scans, recorded, advanced⟩
  · rw [scanned.calibratable_iff ahead inside] at skipped
    cases inPlace : opts.inPlaceResume with
    | false =>
        rw [nextIdx_forward inPlace]
        exact scanned
    | true =>
        simp only [inPlace, if_true] at visits
        refine ⟨scanned.items, scanned.len, fun p unvisited => ?_, inside.le, scanned.nodup,
          fun q => ?_, fun done => ?_⟩
        · exact scanned.ahead p fun visited => unvisited ((visits p).mpr (.inl visited))
        · rw [scanned.mem, visits]
          constructor
          · exact fun member => ⟨.inl member.1, member.2⟩
          · rintro ⟨visited | rfl, wanted⟩
            · exact ⟨visited, wanted⟩
            · exact absurd wanted skipped
        · rw [goesOn] at done
          cases done
  · rw [scanned.calibratable_iff ahead inside] at calibratable
    rw [scanned.items, advanceIdx_eq opts inside bound] at advanced
    have idx_eq : m.idx = if opts.inPlaceResume then l.nextIdx opts else l.nextIdx opts + 1 := by
      refine (congrArg Prod.fst advanced).trans ?_
      split <;> rfl
    rw [← idx_eq] at visits
    refine ⟨scans.items.trans scanned.items, fun p => (scans.len p).trans (scanned.len p),
      fun p unvisited within => ?_, ?_, ?_, fun q => ?_, fun done q within => ?_⟩
    · have other : p ≠ l.nextIdx opts := fun same => unvisited ((visits p).mpr (.inr same))
      rw [scans.disabled p other]
      exact scanned.ahead p (fun visited => unvisited ((visits p).mpr (.inl visited))) within
    · rw [idx_eq]
      split <;> omega
    · rw [recorded]
      exact List.nodup_cons.mpr ⟨fresh, scanned.nodup⟩
    · rw [recorded, List.mem_cons, scanned.mem, visits]
      constructor
      · rintro (rfl | ⟨visited, wanted⟩)
        · exact ⟨.inr rfl, calibratable⟩
        · exact ⟨.inl visited, wanted⟩
      · rintro ⟨visited | rfl, wanted⟩
        · exact .inr ⟨visited, wanted⟩
        · exact .inl rfl
    · have second := (congrArg Prod.snd advanced).symm.trans done
      simp only [Visited, idx_eq]
      cases inPlace : opts.inPlaceResume with
      | true =>
          simp only [inPlace, if_true, decide_eq_true_eq] at second ⊢
          omega
      | false =>
          simp only [inPlace, Bool.false_eq_true, if_false, decide_eq_true_eq] at second ⊢
          omega

/-! ## Whole runs -/

/-- The queue is not empty, and every entry at which the loop would go astray is one that it
calibrates: all of them going forward, entry 0 going backward. -/
def Visitable (opts : DryRunOptions) (afl : AflState) : Prop :=
  0 < afl.queuedItems ∧
    if opts.inPlaceResume then Calibratable afl 0
    else ∀ q < afl.queuedItems, Calibratable afl q

/-- The rounds that are left. -/
def roundsLeft (opts : DryRunOptions) (items : ℕ) (l : DryRunScan) : ℕ :=
  if opts.inPlaceResume then l.idx else items - l.idx

section Runs

variable (bound : d.s.afl.queuedItems < 2 ^ 32) (goesOn : GoesOn B opts seeds d)
include bound goesOn

theorem dryRunScanned_of_reachable (run : Reachable (dryRunScans B opts seeds d) l) :
    DryRunScanned opts d.s.afl l ∧ l.d.stopped = false := by
  induction run with
  | init first =>
      rw [first]
      exact ⟨scanned_start opts d, rfl⟩
  | step before taken ih =>
      have running := (goesOn _ before taken.1).2 _ taken.2
      have unfinished := (Bool.or_eq_false_iff.mp taken.1).1
      exact ⟨ih.1.round bound taken.2 unfinished running, running⟩

/-- What a step does to the index and to `done`, in terms of the queue at the start. -/
theorem step_cases (run : Reachable (dryRunScans B opts seeds d) l)
    (taken : (dryRunScans B opts seeds d).step l m) :
    l.done = false ∧ l.nextIdx opts < d.s.afl.queuedItems ∧
      ((¬ Calibratable d.s.afl (l.nextIdx opts) ∧ m.idx = l.nextIdx opts ∧ m.done = false) ∨
        (Calibratable d.s.afl (l.nextIdx opts) ∧
          (m.idx, m.done) =
            if opts.inPlaceResume then (l.nextIdx opts, decide (l.nextIdx opts = 0))
            else (l.nextIdx opts + 1, decide (d.s.afl.queuedItems ≤ l.nextIdx opts + 1)))) := by
  have unfinished := (Bool.or_eq_false_iff.mp taken.1).1
  obtain ⟨scanned, -⟩ := dryRunScanned_of_reachable bound goesOn run
  obtain ⟨inside, moved⟩ := dryRunRound_cases taken.2 ((goesOn _ run taken.1).2 _ taken.2)
  rw [scanned.items] at inside moved
  obtain ⟨ahead, -⟩ := nextIdx_ahead bound scanned.inside inside
  rw [scanned.calibratable_iff ahead inside] at moved
  refine ⟨unfinished, inside, ?_⟩
  rcases moved with ⟨skipped, rfl⟩ | ⟨wanted, -, -, advanced⟩
  · exact .inl ⟨skipped, rfl, unfinished⟩
  · rw [advanceIdx_eq opts inside bound] at advanced
    exact .inr ⟨wanted, advanced⟩

/-- A round whose index lies in the queue is possible. -/
theorem exists_round (run : Reachable (dryRunScans B opts seeds d) l) (unfinished : l.done = false)
    (inside : l.nextIdx opts < d.s.afl.queuedItems) :
    ∃ m, (dryRunScans B opts seeds d).step l m := by
  obtain ⟨scanned, running⟩ := dryRunScanned_of_reachable bound goesOn run
  have notEnded : l.ended = false := Bool.or_eq_false_iff.mpr ⟨unfinished, running⟩
  cases round : dryRunRound B opts seeds l with
  | ok m => exact ⟨m, notEnded, round⟩
  | error fault =>
      cases fault with
      | fatal => exact absurd round (goesOn l run notEnded).1
      | lost =>
          rw [dryRunRound] at round
          dsimp only at round
          rw [if_neg (by rw [scanned.items]; omega)] at round
          split at round
          · cases round
          · split at round
            · cases round
            · generalize calibrateSeed B opts _ _ _ = calibrated at round
              cases result : dryRunResult B opts (seeds (l.nextIdx opts))
                  (l.d.withAfl calibrated.2) (l.nextIdx opts) calibrated.1 with
              | ok e =>
                  rw [result] at round
                  cases round
              | error fault =>
                  rw [result, dryRunResult_error result] at round
                  cases round

/-- In a visitable queue, the loop is left as soon as nothing is ahead. -/
theorem pending_of_reachable (run : Reachable (dryRunScans B opts seeds d) l)
    (visitable : Visitable opts d.s.afl) (unfinished : l.done = false) :
    if opts.inPlaceResume then 0 < l.idx else l.idx < d.s.afl.queuedItems := by
  induction run with
  | init first =>
      rw [first]
      simp only [dryRunStart]
      split <;> exact visitable.1
  | @step l m before taken ih =>
      obtain ⟨before_unfinished, inside, moved⟩ := step_cases bound goesOn before taken
      have wanted := visitable.2
      rcases moved with ⟨skipped, idx_eq, -⟩ | ⟨-, advanced⟩
      · rw [idx_eq]
        cases inPlace : opts.inPlaceResume with
        | true =>
            simp only [inPlace, if_true] at wanted ⊢
            refine Nat.pos_of_ne_zero fun zero => skipped ?_
            rw [zero]
            exact wanted
        | false =>
            simp only [inPlace, Bool.false_eq_true, if_false] at wanted
            exact absurd (wanted _ inside) skipped
      · have idx_eq := congrArg Prod.fst advanced
        have done_eq := (congrArg Prod.snd advanced).symm.trans unfinished
        cases inPlace : opts.inPlaceResume with
        | true =>
            simp only [inPlace, if_true, decide_eq_false_iff_not] at idx_eq done_eq ⊢
            omega
        | false =>
            simp only [inPlace, Bool.false_eq_true, if_false, decide_eq_false_iff_not]
              at idx_eq done_eq ⊢
            omega

omit bound goesOn in
/-- The next index lies in the queue if something is ahead. -/
theorem nextIdx_lt {items : ℕ} (bound : items < 2 ^ 32) (inside : l.idx ≤ items)
    (pending : if opts.inPlaceResume then 0 < l.idx else l.idx < items) :
    l.nextIdx opts < items ∧ (opts.inPlaceResume = true → l.nextIdx opts < l.idx) := by
  simp only [DryRunScan.nextIdx]
  cases inPlace : opts.inPlaceResume with
  | true =>
      simp only [inPlace, if_true] at pending ⊢
      rw [u32Pred_eq_sub pending (by omega)]
      omega
  | false =>
      simp only [inPlace, Bool.false_eq_true, if_false] at pending ⊢
      exact ⟨pending, nofun⟩

/-- Every round of a visitable queue comes closer to the end. -/
theorem step_lowers (run : Reachable (dryRunScans B opts seeds d) l)
    (visitable : Visitable opts d.s.afl) (taken : (dryRunScans B opts seeds d).step l m) :
    roundsLeft opts d.s.afl.queuedItems m < roundsLeft opts d.s.afl.queuedItems l := by
  obtain ⟨scanned, -⟩ := dryRunScanned_of_reachable bound goesOn run
  obtain ⟨unfinished, inside, moved⟩ := step_cases bound goesOn run taken
  have pending := pending_of_reachable bound goesOn run visitable unfinished
  have below := (nextIdx_lt bound scanned.inside pending).2
  have wanted := visitable.2
  rcases moved with ⟨skipped, idx_eq, -⟩ | ⟨-, advanced⟩
  · cases inPlace : opts.inPlaceResume with
    | true =>
        simp only [roundsLeft, inPlace, if_true, idx_eq]
        exact below inPlace
    | false =>
        simp only [inPlace, Bool.false_eq_true, if_false] at wanted
        exact absurd (wanted _ inside) skipped
  · have idx_eq := congrArg Prod.fst advanced
    cases inPlace : opts.inPlaceResume with
    | true =>
        simp only [inPlace, if_true] at idx_eq
        simp only [roundsLeft, inPlace, if_true, idx_eq]
        exact below inPlace
    | false =>
        simp only [inPlace, Bool.false_eq_true, if_false] at idx_eq
        simp only [roundsLeft, inPlace, Bool.false_eq_true, if_false, idx_eq]
        have here := nextIdx_forward (l := l) inPlace
        omega

/-- A visitable queue is visited as claimed. -/
theorem visits_of_visitable (visitable : Visitable opts d.s.afl) :
    DryRunVisits B opts seeds d := by
  constructor
  · refine Inevitable.of_measure (Reachable (dryRunScans B opts seeds d))
      (roundsLeft opts d.s.afl.queuedItems) ?_ (Reachable.init rfl)
    intro l run
    cases finished : l.done with
    | true => exact .inl rfl
    | false =>
        obtain ⟨scanned, -⟩ := dryRunScanned_of_reachable bound goesOn run
        have pending := pending_of_reachable bound goesOn run visitable finished
        have inside := (nextIdx_lt bound scanned.inside pending).1
        exact .inr ⟨exists_round bound goesOn run finished inside,
          fun m taken => ⟨run.step taken, step_lowers bound goesOn run visitable taken⟩⟩
  · intro l run
    obtain ⟨scanned, -⟩ := dryRunScanned_of_reachable bound goesOn run
    refine ⟨fun unfinished => ?_, fun finished => ⟨scanned.nodup, fun q => ?_⟩⟩
    · have pending := pending_of_reachable bound goesOn run visitable unfinished
      exact (nextIdx_lt bound scanned.inside pending).1
    · rw [scanned.mem]
      constructor
      · rintro ⟨visited, wanted⟩
        refine ⟨?_, wanted⟩
        have inside := scanned.inside
        simp only [Visited] at visited
        split at visited
        · exact visited.2
        · omega
      · rintro ⟨inside, wanted⟩
        exact ⟨scanned.finished finished q inside, wanted⟩

/-- An entry that is not calibrated, at any place going forward and at the front going
backward, keeps the loop from ending. -/
theorem never_done {b : ℕ} (uncalibrated : ¬ Calibratable d.s.afl b)
    (inside : b < d.s.afl.queuedItems) (front : opts.inPlaceResume = true → b = 0) :
    ¬ Inevitable (dryRunScans B opts seeds d).step (fun l => l.done = true)
      (dryRunStart opts d) := by
  refine Inevitable.not_of_trap
    (fun l => Reachable (dryRunScans B opts seeds d) l ∧ l.done = false ∧
      (opts.inPlaceResume = false → l.idx ≤ b)) ?_ ⟨Reachable.init rfl, rfl, ?_⟩
  · rintro l ⟨run, unfinished, before⟩
    refine ⟨by rw [unfinished]; decide, fun m taken => ⟨m, taken, run.step taken, ?_⟩⟩
    obtain ⟨-, within, moved⟩ := step_cases bound goesOn run taken
    rcases moved with ⟨-, idx_eq, still⟩ | ⟨wanted, advanced⟩
    · refine ⟨still, fun inPlace => ?_⟩
      rw [idx_eq, nextIdx_forward inPlace]
      exact before inPlace
    · have other : l.nextIdx opts ≠ b := by
        intro same
        rw [same] at wanted
        exact uncalibrated wanted
      have idx_eq := congrArg Prod.fst advanced
      have done_eq := congrArg Prod.snd advanced
      cases inPlace : opts.inPlaceResume with
      | true =>
          simp only [inPlace, if_true] at done_eq
          rw [front inPlace] at other
          exact ⟨done_eq.trans (decide_eq_false other), nofun⟩
      | false =>
          simp only [inPlace, Bool.false_eq_true, if_false] at idx_eq done_eq
          have here := nextIdx_forward (l := l) inPlace
          have ahead := before inPlace
          exact ⟨done_eq.trans (decide_eq_false (by omega)), fun _ => by omega⟩
  · intro inPlace
    simp only [dryRunStart, inPlace, Bool.false_eq_true, if_false]
    exact Nat.zero_le b

/-- **The main loop visits the queue as claimed exactly if the queue is visitable.** -/
theorem dry_run_visits_iff :
    DryRunVisits B opts seeds d ↔ Visitable opts d.s.afl := by
  refine ⟨fun visits => ?_, visits_of_visitable bound goesOn⟩
  obtain ⟨ends, inside⟩ := visits
  have positive : 0 < d.s.afl.queuedItems :=
    Nat.zero_lt_of_lt ((inside _ (Reachable.init rfl)).1 rfl)
  refine ⟨positive, ?_⟩
  cases inPlace : opts.inPlaceResume with
  | true =>
      simp only [if_true]
      by_contra uncalibrated
      exact never_done bound goesOn uncalibrated positive (fun _ => rfl) ends
  | false =>
      simp only [Bool.false_eq_true, if_false]
      intro q queued
      by_contra uncalibrated
      refine never_done bound goesOn uncalibrated queued (fun backward => ?_) ends
      rw [inPlace] at backward
      cases backward

end Runs

/-! ## Two queues of one entry -/

/-- A seed of one byte whose runs end normally. -/
def oneSeed : DryRun := { s := { afl := addToQueue { mapSize := 8 } 1 false } }

/-- The same seed after a custom mutator has grown its file to four gigabytes, which the length
of the entry cannot hold. -/
def grownSeed : DryRun :=
  { s := { afl := runAflCustomQueueNewEntry oneSeed.s.afl 0 (some 4294967296) } }

def steadySeed : SeedInput :=
  { calibration := { runs := fun _ => { trace := fun i => if i = 0 then 1 else 0 } } }

theorem goesOn_oneSeed : GoesOn trivialBuild {} (fun _ => steadySeed) oneSeed := by
  have round : ∃ m, dryRunRound trivialBuild {} (fun _ => steadySeed) (dryRunStart { } oneSeed) =
      .ok m ∧ m.done = true ∧ m.d.stopped = false :=
    ⟨_, rfl, by decide +kernel, by decide +kernel⟩
  obtain ⟨last, ran, done, running⟩ := round
  have reached : ∀ l, Reachable (dryRunScans trivialBuild {} (fun _ => steadySeed) oneSeed) l →
      l = dryRunStart {} oneSeed ∨ l = last := by
    intro l run
    induction run with
    | init first => exact .inl first
    | step _ taken ih =>
        rcases ih with rfl | rfl
        · exact .inr (Except.ok.inj (taken.2.symm.trans ran))
        · have ended := taken.1
          rw [DryRunScan.ended, done] at ended
          cases ended
  intro l run notEnded
  rcases reached l run with rfl | rfl
  · rw [ran]
    exact ⟨nofun, fun m same => by cases same; exact running⟩
  · rw [DryRunScan.ended, done] at notEnded
    cases notEnded

/-- The only entry is calibrated, and the loop ends. -/
theorem dry_run_visits_oneSeed : Visitable {} oneSeed.s.afl ∧
    DryRunVisits trivialBuild {} (fun _ => steadySeed) oneSeed := by
  have visitable : Visitable {} oneSeed.s.afl := by
    refine ⟨by decide +kernel, fun q inside => ?_⟩
    obtain rfl : q = 0 := Nat.lt_one_iff.mp inside
    exact ⟨by decide +kernel, by decide +kernel⟩
  exact ⟨visitable, (dry_run_visits_iff (by decide +kernel) goesOn_oneSeed).mpr visitable⟩

/-- Going forward, the loop looks at an entry of length zero for ever. -/
theorem grown_seed_never_passed :
    GoesOn trivialBuild {} (fun _ => steadySeed) grownSeed ∧
      ¬ DryRunVisits trivialBuild {} (fun _ => steadySeed) grownSeed := by
  have round : dryRunRound trivialBuild {} (fun _ => steadySeed) (dryRunStart {} grownSeed) =
      .ok (dryRunStart {} grownSeed) := by
    have inside : ¬ grownSeed.s.afl.queuedItems ≤ 0 := by decide +kernel
    have empty : (grownSeed.s.afl.queueBuf 0).len = 0 := by decide +kernel
    rw [dryRunRound]
    dsimp only
    exact (if_neg inside).trans (if_pos (.inr empty))
  have goesOn : GoesOn trivialBuild {} (fun _ => steadySeed) grownSeed := by
    have reached : ∀ l,
        Reachable (dryRunScans trivialBuild {} (fun _ => steadySeed) grownSeed) l →
          l = dryRunStart {} grownSeed := by
      intro l run
      induction run with
      | init first => exact first
      | step _ taken ih =>
          subst ih
          exact Except.ok.inj (taken.2.symm.trans round)
    intro l run _
    rw [reached l run, round]
    exact ⟨nofun, fun m same => by cases same; rfl⟩
  refine ⟨goesOn, fun visits => ?_⟩
  have empty : ¬ Calibratable grownSeed.s.afl 0 := fun wanted => wanted.2 (by decide +kernel)
  exact never_done (by decide +kernel) goesOn empty (by decide +kernel) nofun visits.1

end GreenFuzz.AflFuzz
