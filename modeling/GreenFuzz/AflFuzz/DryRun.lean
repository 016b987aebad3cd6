import GreenFuzz.AflFuzz.FuzzOne

/-!
# The dry run

`perform_dry_run` of `afl-fuzz-init.c`: every seed is calibrated, seeds that time out or crash
are taken out of the queue, and then every seed whose trace another seed has as well.

What the runs of a seed do is an input of the model, and so are the content of the seed and the
texts that go into the name of a crash file. The loop over the seeds is a `do` loop whose body
can `continue`, which leads to its condition: going forward, the same entry is looked at again
for ever, and going backward from entry 0 the loop leaves the queue. Both are the fault `lost`.

Left out are the warnings, the file that explains the crash directory, and the log that Nyx
writes next to a crash.
-/

set_option autoImplicit false

namespace GreenFuzz.AflFuzz

open Library

/-- How the dry run can fail to return. -/
inductive DryRunFault where
  | fatal | lost
  deriving DecidableEq, Repr

/-- The options that `perform_dry_run` looks at. -/
structure DryRunOptions where
  inPlaceResume : Bool := false
  timeoutGiven : Bool := false
  aflExitOnSeedIssues : Bool := false
  aflIgnoreSeedProblems : Bool := false
  aflCrashingSeedsAsNewCrash : Bool := false
  aflCmplogOnlyNew : Bool := false

/-- What the dry run of a seed is given. `useName` is the part of its name from `,orig:` on. -/
structure SeedInput where
  calibration : CalibrationInput
  mem : List Byte := []
  describeOp : String := ""
  useName : String := ""

/-- The state of the dry run. `queue` is `afl->queue`, and `stopped` tells that it returned
early. -/
structure DryRun where
  s : SaveState
  queue : ℕ := 0
  uselessAtStart : ℕ := 0
  calFailures : ℕ := 0
  stopped : Bool := false

/-- Change the fuzzer state. -/
def DryRun.withAfl (d : DryRun) (afl : AflState) : DryRun :=
  { d with s := { d.s with afl := afl } }

/-! ## Taking a seed out -/

/-- The block that marks a seed as fuzzed and takes it out of the counters. -/
def retireEntry (afl : AflState) (q : ℕ) : AflState :=
  if !(afl.queueBuf q).wasFuzzed then
    { afl.modifyEntry q fun e => { e with wasFuzzed := true } with
      reinitTable := true
      pendingNotFuzzed := u32Pred afl.pendingNotFuzzed
      activeItems := u32Pred afl.activeItems }
  else afl

/-- `q->disabled = 1; q->perf_score = 0;`. -/
def disableEntry (afl : AflState) (q : ℕ) : AflState :=
  afl.modifyEntry q fun e => { e with disabled := true, perfScore := 0 }

/-- The first enabled entry, or entry 0. -/
def firstEnabled (afl : AflState) : ℕ :=
  ((List.range afl.queuedItems).find? fun i => !(afl.queueBuf i).disabled).getD 0

/-- The depth of the deepest enabled entry. -/
def deepestEnabled (afl : AflState) : ℕ :=
  (List.range afl.queuedItems).foldl
    (fun depth i =>
      if !(afl.queueBuf i).disabled ∧ depth < (afl.queueBuf i).depth then (afl.queueBuf i).depth
      else depth)
    0

/-! ## The outcomes of a seed -/

section Outcomes

variable (B : Build) (opts : DryRunOptions) (seed : SeedInput) (d : DryRun) (q : ℕ)

/-- The case `FSRV_RUN_TMOUT`. `say_once` is only set when seed problems are ignored, so that the
test for them decides every time. -/
def dryRunTimeout : Except DryRunFault DryRun :=
  if opts.timeoutGiven ∧ !opts.aflExitOnSeedIssues then
    let afl := d.s.afl.modifyEntry q fun e => { e with calFailed := calChances }
    .ok { d.withAfl (retireEntry (disableEntry afl q) q) with
      calFailures := u32 (d.calFailures + 1) }
  else if !opts.aflIgnoreSeedProblems then .error .fatal
  else .ok (d.withAfl (disableEntry (retireEntry d.s.afl q) q))

/-- Whether `virgin_crash` does not know the trace yet. -/
def crashingSeedIsNew (afl : AflState) : Bool × AflState :=
  if afl.nonInstrumentedMode then (true, afl)
  else
    newToMap B { afl with
      traceBits := classifyCounts B.variant.wordSize afl.mapSize afl.traceBits } .crash

/-- The name of the crash file of a seed. -/
def crashingSeedFn : String :=
  if d.s.aflSha1Filenames then B.sha1Hex seed.mem ++ d.s.suffix
  else "id:" ++ pad6 d.s.savedCrashes ++ ",sig:" ++ pad2 d.s.lastKillSignal ++ "," ++
    seed.describeOp ++ seed.useName ++ d.s.suffix

/-- The block for `AFL_CRASHING_SEEDS_AS_NEW_CRASH`, up to the end of the case. A trace that is
not new leaves the case before the seed is disabled. -/
def crashingSeedAsNewCrash : Except DryRunFault DryRun :=
  let found := crashingSeedIsNew B d.s.afl
  let d := { d with s := { d.s with
    afl := found.2, totalCrashes := u64 (d.s.totalCrashes + 1) } }
  if !found.1 then .ok d
  else
    let name := crashingSeedFn B seed d
    if d.s.crashFiles.any fun file => file.name = name then .error .fatal
    else
      .ok { d with s := { d.s with
        afl := disableEntry d.s.afl q
        savedCrashes := u64 (d.s.savedCrashes + 1)
        crashFiles := d.s.crashFiles ++ [⟨name, seed.mem⟩] } }

/-- The case `FSRV_RUN_CRASH`. -/
def dryRunCrash : Except DryRunFault DryRun :=
  if d.s.afl.crashMode ≠ .ok then .ok d
  else if opts.aflExitOnSeedIssues then .error .fatal
  else
    let afl := retireEntry d.s.afl q
    if opts.aflCrashingSeedsAsNewCrash then crashingSeedAsNewCrash B seed (d.withAfl afl) q
    else
      .ok { d.withAfl (disableEntry { afl with maxDepth := deepestEnabled afl } q) with
        queue := firstEnabled afl }

/-- The `switch` over the result of the calibration. -/
def dryRunResult (res : FsrvRunResult) : Except DryRunFault DryRun :=
  match res with
  | .ok => if d.s.afl.crashMode ≠ .ok then .error .fatal else .ok d
  | .tmout => dryRunTimeout opts d q
  | .crash => dryRunCrash B opts seed d q
  | .error => .error .fatal
  | .noinst => .error .fatal
  | .nobits => .ok { d with uselessAtStart := u32 (d.uselessAtStart + 1) }

/-- `CMPLOG_LVL_MAX`. -/
def cmplogLvlMax : ℕ := 3

/-- `AFL_CMPLOG_ONLY_NEW` spares the seeds the colorization. -/
def spareSeed (afl : AflState) : AflState :=
  if opts.aflCmplogOnlyNew then afl.modifyEntry q fun e => { e with colorized := cmplogLvlMax }
  else afl

/-- The calibration of a seed. -/
def calibrateSeed (afl : AflState) : FsrvRunResult × AflState :=
  let calibrated := calibrateCase B.platform (spareSeed opts q afl) q seed.calibration
  (calibrated.1,
    if calibrated.2.countsPaths ∧ (calibrated.2.queueBuf q).execCksum ≠ 0 then
      calibrated.2.modifyEntry q fun e => { e with nFuzzEntry := e.execCksum % nFuzzSize }
    else calibrated.2)

/-- One round of the loop over the seeds. -/
def dryRunEntry : Except DryRunFault DryRun :=
  if (d.s.afl.queueBuf q).disabled ∨ (d.s.afl.queueBuf q).len = 0 then
    if opts.inPlaceResume ∧ q ≠ 0 then .ok d else .error .lost
  else
    let calibrated := calibrateSeed B opts seed q d.s.afl
    let d := d.withAfl calibrated.2
    if d.s.afl.stopSoon then .ok { d with stopped := true }
    else dryRunResult B opts seed d q calibrated.1

end Outcomes

/-! ## What the outcome of a seed does to the state -/

section Cases

variable {B : Build} {opts : DryRunOptions} {seed : SeedInput} {d e : DryRun} {q : ℕ}

/-- The state after the `switch`, by the branch that was taken. -/
inductive SeedOutcome (B : Build) (opts : DryRunOptions) (q : ℕ) (res : FsrvRunResult)
    (afl : AflState) : AflState → Prop
  | kept : SeedOutcome B opts q res afl afl
  | failed : SeedOutcome B opts q res afl (retireEntry (disableEntry
      (afl.modifyEntry q fun e => { e with calFailed := calChances }) q) q)
  | timedOut : SeedOutcome B opts q res afl (disableEntry (retireEntry afl q) q)
  | knownCrash (crashed : res = .crash) (saves : opts.aflCrashingSeedsAsNewCrash = true)
      (stays : opts.aflExitOnSeedIssues = false) (mode : afl.crashMode = .ok)
      (old : (crashingSeedIsNew B (retireEntry afl q)).1 = false) :
      SeedOutcome B opts q res afl (crashingSeedIsNew B (retireEntry afl q)).2
  | newCrash : SeedOutcome B opts q res afl
      (disableEntry (crashingSeedIsNew B (retireEntry afl q)).2 q)
  | crash : SeedOutcome B opts q res afl (disableEntry
      { retireEntry afl q with maxDepth := deepestEnabled (retireEntry afl q) } q)

theorem dryRunResult_cases {res : FsrvRunResult}
    (done : dryRunResult B opts seed d q res = .ok e) :
    SeedOutcome B opts q res d.s.afl e.s.afl := by
  cases res with
  | ok =>
      simp only [dryRunResult] at done
      split at done
      · cases done
      · cases done
        exact .kept
  | tmout =>
      simp only [dryRunResult, dryRunTimeout] at done
      split at done
      · cases done
        exact .failed
      · split at done
        · cases done
        · cases done
          exact .timedOut
  | crash =>
      simp only [dryRunResult, dryRunCrash] at done
      split at done
      · cases done
        exact .kept
      · rename_i mode
        split at done
        · cases done
        · rename_i stays
          split at done
          · rename_i saves
            simp only [crashingSeedAsNewCrash] at done
            split at done
            · rename_i old
              cases done
              exact .knownCrash rfl saves (Bool.eq_false_of_not_eq_true stays) (not_not.mp mode)
                (by simpa [DryRun.withAfl] using old)
            · split at done
              · cases done
              · cases done
                exact .newCrash
          · cases done
            exact .crash
  | error => cases done
  | noinst => cases done
  | nobits =>
      cases done
      exact .kept

/-- **One round of the loop over the seeds**: the seed is skipped, or calibrated and then treated
by the outcome, unless the fuzzer is stopped. -/
theorem dryRunEntry_cases (done : dryRunEntry B opts seed d q = .ok e) :
    e.s.afl = d.s.afl ∨
      (d.s.afl.queueBuf q).disabled = false ∧
        (e.s.afl = (calibrateSeed B opts seed q d.s.afl).2 ∨
          (calibrateSeed B opts seed q d.s.afl).2.stopSoon = false ∧
            SeedOutcome B opts q (calibrateSeed B opts seed q d.s.afl).1
              (calibrateSeed B opts seed q d.s.afl).2 e.s.afl) := by
  simp only [dryRunEntry] at done
  split at done
  · split at done
    · cases done
      exact .inl rfl
    · cases done
  · rename_i runs
    refine .inr ⟨Bool.eq_false_of_not_eq_true fun disabled => runs (.inl disabled), ?_⟩
    split at done
    · cases done
      exact .inl rfl
    · rename_i running
      exact .inr ⟨Bool.eq_false_of_not_eq_true running, dryRunResult_cases done⟩

end Cases

/-- The loop over the seeds. -/
def dryRunLoop (B : Build) (opts : DryRunOptions) (seeds : ℕ → SeedInput) :
    DryRun → List ℕ → Except DryRunFault DryRun
  | d, [] => .ok d
  | d, q :: rest => do
      let d ← dryRunEntry B opts (seeds q) d q
      if d.stopped then .ok d else dryRunLoop B opts seeds d rest

/-! ## Duplicates -/

/-- The seeds whose traces are compared. -/
def QueueEntry.comparable (e : QueueEntry) : Bool :=
  !e.disabled && e.calFailed = 0 && e.execCksum ≠ 0

/-- The inner loop, which compares entry `idx` with the later ones. The shorter file is kept, and
the loop ends when entry `idx` is disabled itself. The flag tells whether there was a
duplicate. -/
def dropDuplicatesOf (idx : ℕ) : AflState × Bool → List ℕ → AflState × Bool
  | state, [] => state
  | state, i :: rest =>
      let q := state.1.queueBuf idx
      let p := state.1.queueBuf i
      if !p.comparable || p.execCksum ≠ q.execCksum then dropDuplicatesOf idx state rest
      else if q.len ≤ p.len then
        dropDuplicatesOf idx (disableEntry (retireEntry state.1 i) i, true) rest
      else (disableEntry (retireEntry state.1 idx) idx, true)

/-- One round of the outer loop. -/
def dropDuplicatesRound (state : AflState × Bool) (idx : ℕ) : AflState × Bool :=
  if (state.1.queueBuf idx).comparable then
    dropDuplicatesOf idx state (List.range' (idx + 1) (state.1.queuedItems - (idx + 1)))
  else state

/-- The pass that removes the entries with a duplicate trace map. -/
def dropDuplicates (afl : AflState) (queue : ℕ) : AflState :=
  let found := (List.range (afl.queuedItems - 1)).foldl dropDuplicatesRound (afl, false)
  if found.2 then
    { found.1 with maxDepth := deepestEnabled found.1, queueTop := some queue }
  else found.1

/-- Dropping a seed leaves the other entries as they are. -/
theorem drop_queueBuf_of_ne (afl : AflState) {p q : ℕ} (other : p ≠ q) :
    (disableEntry (retireEntry afl q) q).queueBuf p = afl.queueBuf p := by
  unfold disableEntry retireEntry
  rw [AflState.modifyEntry_queueBuf_of_ne _ _ _ other]
  split
  · dsimp only
    exact AflState.modifyEntry_queueBuf_of_ne _ _ _ other
  · rfl

/-- The inner loop, as a rule: what dropping a seed keeps, the loop keeps. -/
theorem dropDuplicatesOf_rule {P : AflState → Prop} {n idx : ℕ}
    (drop : ∀ {afl q}, P afl → q < n → (afl.queueBuf q).comparable = true →
      P (disableEntry (retireEntry afl q) q))
    (inside : idx < n) (rest : List ℕ) (later : ∀ i ∈ rest, idx < i ∧ i < n)
    {state : AflState × Bool} (holds : P state.1)
    (comparable : (state.1.queueBuf idx).comparable = true) :
    P (dropDuplicatesOf idx state rest).1 := by
  induction rest generalizing state with
  | nil => exact holds
  | cons i rest ih =>
      have after (j : ℕ) (member : j ∈ rest) := later j (List.mem_cons_of_mem i member)
      obtain ⟨follows, below⟩ := later i List.mem_cons_self
      simp only [dropDuplicatesOf]
      split
      · exact ih after holds comparable
      · rename_i same
        have present : (state.1.queueBuf i).comparable = true := by
          simp only [Bool.or_eq_true, not_or] at same
          simpa using same.1
        split
        · refine ih after (drop holds below present) ?_
          rwa [drop_queueBuf_of_ne _ follows.ne]
        · exact drop holds inside comparable

/-- **The pass over the duplicates, as a rule.** -/
theorem dropDuplicates_rule {P : AflState → Prop} {n : ℕ}
    (size : ∀ {afl}, P afl → afl.queuedItems = n)
    (drop : ∀ {afl q}, P afl → q < n → (afl.queueBuf q).comparable = true →
      P (disableEntry (retireEntry afl q) q))
    (afl : AflState) (holds : P afl) :
    P ((List.range (afl.queuedItems - 1)).foldl dropDuplicatesRound (afl, false)).1 := by
  have bound := size holds
  refine foldl_invariant (P := fun state : AflState × Bool => P state.1) holds
    fun idx member state so => ?_
  have inside := List.mem_range.mp member
  unfold dropDuplicatesRound
  split
  · rename_i comparable
    refine dropDuplicatesOf_rule drop (by omega) _ (fun i later => ?_) so comparable
    rw [List.mem_range'_1, size so] at later
    omega
  · exact so

/-- The seeds in the order of the loop. -/
def dryRunOrder (opts : DryRunOptions) (queuedItems : ℕ) : List ℕ :=
  if opts.inPlaceResume then (List.range queuedItems).reverse else List.range queuedItems

/-- `perform_dry_run`. -/
def performDryRun (B : Build) (opts : DryRunOptions) (seeds : ℕ → SeedInput) (d : DryRun) :
    Except DryRunFault DryRun :=
  if d.s.afl.queuedItems = 0 then .error .lost
  else do
    let d ← dryRunLoop B opts seeds d (dryRunOrder opts d.s.afl.queuedItems)
    if d.stopped then .ok d
    else if d.calFailures ≠ 0 ∧ d.calFailures = d.s.afl.queuedItems then .error .fatal
    else .ok (d.withAfl (dropDuplicates d.s.afl d.queue))

end GreenFuzz.AflFuzz
