import GreenFuzz.AflFuzz.SaveIfInteresting

/-!
# Fuzzing one entry

`fuzz_one` of `afl-fuzz-one.c` and the choice of the entry in the main loop of `afl-fuzz.c`. Both
engines, `fuzz_one_original` and `mopt_common_fuzzing`, skip some entries, retry a failed
calibration, trim the case, and then run one mutation after another. They differ in how they
leave the entry: `abandonEntry` keeps the books of the queue, `abandonEntryPuppet` does not.

The mutations themselves are inputs of the model, as the list of the executions they lead to. An
execution goes through `common_fuzz_stuff`, and one that asks to bail out ends the list. The
stages of the input-to-state engine are executions of the same kind. What `trim_case` makes of
the length is an input here too.

Left out are the statistics of the stages, the swarm of the MOpt engine and what is shown to the
user.
-/

set_option autoImplicit false

namespace GreenFuzz.AflFuzz

open Library

/-! ## Executions -/

/-- One call of `common_fuzz_stuff`: whether `write_to_testcase` left something to run, what the
target does, whether the user asked to skip the entry, and what `save_if_interesting` is given. -/
structure Execution where
  written : Bool := true
  run : RunOutcome
  skipRequested : Bool := false
  save : SaveInput

/-- `TMOUT_LIMIT`. -/
def tmoutLimit : ℕ := 250

/-- The result of `common_fuzz_stuff`: whether to bail out, the number of subsequent timeouts, and
the state. -/
structure Progress where
  bail : Bool := false
  subseqTmouts : ℕ := 0
  s : SaveState

/-- `common_fuzz_stuff`. -/
def commonFuzzStuff (B : Build) (p : Progress) (e : Execution) : Except SaveFault Progress :=
  if !e.written then .ok p
  else
    let s := { p.s with afl := fuzzRunTarget p.s.afl e.run }
    let tmouts := if e.run.fault = .tmout then u32 (p.subseqTmouts + 1) else 0
    if s.afl.stopSoon then .ok { bail := true, subseqTmouts := p.subseqTmouts, s := s }
    else if e.run.fault = .tmout ∧ tmoutLimit < p.subseqTmouts then
      .ok { bail := true, subseqTmouts := tmouts, s := s }
    else if e.skipRequested then .ok { bail := true, subseqTmouts := tmouts, s := s }
    else do
      let saved ← saveIfInteresting B s { e.save with fault := e.run.fault }
      .ok { bail := false
            subseqTmouts := tmouts
            s := { saved.2 with afl := { saved.2.afl with
              queuedDiscovered := u32 (saved.2.afl.queuedDiscovered + saved.1.toNat) } } }

/-- The executions of an entry, up to the first one that asks to bail out. -/
def runStages (B : Build) : Progress → List Execution → Except SaveFault Progress
  | p, [] => .ok p
  | p, e :: rest => do
      let p ← commonFuzzStuff B p e
      if p.bail then .ok p else runStages B p rest

/-! ## Before the executions -/

/-- What `trim_case` did: the runs it made, the new length, and the clean trace if the trimmed
case was written back. -/
structure TrimResult where
  runs : List RunOutcome := []
  len : ℕ
  cleanTrace : Option Buffer := none
  failed : Bool := false

/-- The effect of `trim_case` on the state. -/
def trimEntry (B : Build) (afl : AflState) (q : ℕ) (trim : TrimResult) : AflState :=
  let afl := trim.runs.foldl fuzzRunTarget afl
  let afl := afl.modifyEntry q fun e => { e with len := trim.len }
  match trim.cleanTrace with
  | none => afl
  | some trace => updateBitmapScore B.libm { afl with traceBits := trace } q true

/-- What a call of `fuzz_one` is given. `skipDraw` is the draw of `rand_below(afl, 100)`, and
`calculatedScore` is what `calculate_score` returns, when the old seed selection is in use. -/
structure FuzzOneInput where
  customSkips : Bool := false
  skipDraw : ℕ := 99
  queueCycle : ℕ := 1
  recalibration : CalibrationInput := { runs := fun _ => {} }
  disableTrim : Bool := false
  trim : TrimResult := { len := 1 }
  calculatedScore : Option ℕ := none
  stages : List Execution := []

/-- `SKIP_TO_NEW_PROB`, `SKIP_NFAV_NEW_PROB` and `SKIP_NFAV_OLD_PROB` decide whether the entry is
skipped. -/
def skipsEntry (afl : AflState) (q : QueueEntry) (input : FuzzOneInput) : Bool :=
  if afl.pendingFavored ≠ 0 then
    decide ((q.fuzzLevel ≠ 0 ∨ !q.favored) ∧ input.skipDraw < 99)
  else if !afl.nonInstrumentedMode ∧ !q.favored ∧ 10 < afl.queuedItems then
    if 1 < input.queueCycle ∧ q.fuzzLevel = 0 then decide (input.skipDraw < 75)
    else decide (input.skipDraw < 95)
  else false

/-- `CAL_CHANCES`. -/
def calChances : ℕ := 3

/-- Another calibration, while chances are left. -/
def retryCalibration (B : Build) (afl : AflState) (q : ℕ) (input : FuzzOneInput) :
    FsrvRunResult × AflState :=
  if (afl.queueBuf q).calFailed < calChances then
    calibrateCase B.platform (afl.modifyEntry q fun e => { e with execCksum := 0 }) q
      input.recalibration
  else (.tmout, afl)

/-- The block that calibrates an entry again whose calibration failed. The answer is whether to
abandon the entry. -/
def calibrateAgain (B : Build) (afl : AflState) (q : ℕ) (input : FuzzOneInput) :
    Except SaveFault (Bool × AflState) :=
  if (afl.queueBuf q).calFailed = 0 then .ok (false, afl)
  else
    let result := retryCalibration B afl q input
    if result.1 = .error then .error .fatal
    else .ok (result.2.stopSoon || result.1 ≠ result.2.crashMode, result.2)

/-- The block that trims the case. The answer is whether to abandon the entry. -/
def trimOnce (B : Build) (afl : AflState) (q : ℕ) (input : FuzzOneInput) :
    Except SaveFault (Bool × AflState) :=
  if afl.nonInstrumentedMode ∨ (afl.queueBuf q).trimDone ∨ input.disableTrim then .ok (false, afl)
  else if input.trim.failed then .error .fatal
  else
    let oldLen := (afl.queueBuf q).len
    let afl := trimEntry B afl q input.trim
    if afl.stopSoon then .ok (true, afl)
    else
      .ok (false, { afl.modifyEntry q fun e => { e with trimDone := true } with
        readyForSplicingCount :=
          if (afl.queueBuf q).len ≤ 4 ∧ 4 < oldLen then u32Pred afl.readyForSplicingCount
          else afl.readyForSplicingCount })

/-- The two copies of the engine. -/
inductive Engine where
  | classic | mopt
  deriving DecidableEq, Repr

/-- The block that looks at the performance score. `fuzz_one_original` stores the score that it
calculated, the other engine does not. The answer is whether to abandon the entry. -/
def scoreEntryOnce (engine : Engine) (afl : AflState) (q : ℕ) (input : FuzzOneInput) :
    Bool × AflState :=
  let perfScore := (input.calculatedScore).getD (truncate 32 (afl.queueBuf q).perfScore)
  let afl :=
    match engine, input.calculatedScore with
    | .classic, some score => afl.modifyEntry q fun e => { e with perfScore := score }
    | _, _ => afl
  (decide (perfScore = 0 ∧ 1 < afl.activeItems), afl)

/-- An engine from the choice not to skip the entry to `abandon_entry`. -/
def fuzzEntry (B : Build) (engine : Engine) (s : SaveState) (q : ℕ) (input : FuzzOneInput) :
    Except SaveFault SaveState := do
  let afl := { s.afl with curDepth := (s.afl.queueBuf q).depth }
  let calibrated ← calibrateAgain B afl q input
  if calibrated.1 then .ok { s with afl := calibrated.2 }
  else do
    let trimmed ← trimOnce B calibrated.2 q input
    if trimmed.1 then .ok { s with afl := trimmed.2 }
    else
      let scored := scoreEntryOnce engine trimmed.2 q input
      if scored.1 then .ok { s with afl := scored.2 }
      else do
        let p ← runStages B { s := { s with afl := scored.2 } } input.stages
        .ok p.s

/-! ## Leaving an entry -/

/-- `++afl->queue_cur->fuzz_level`. -/
def raiseFuzzLevel (afl : AflState) (q : ℕ) : AflState :=
  afl.modifyEntry q fun e => { e with fuzzLevel := u32 (e.fuzzLevel + 1) }

/-- The update of the books at `abandon_entry` of `fuzz_one_original`. -/
def settleEntry (afl : AflState) (q : ℕ) : AflState :=
  let e := afl.queueBuf q
  if !afl.stopSoon && e.calFailed = 0 && !e.wasFuzzed && !e.disabled then
    { afl.modifyEntry q fun e => { e with wasFuzzed := true } with
      pendingNotFuzzed := u32Pred afl.pendingNotFuzzed
      reinitTable := true
      pendingFavored := if e.favored then u32Pred afl.pendingFavored else afl.pendingFavored
      smallestFavored := if e.favored then -1 else afl.smallestFavored }
  else afl

/-- `abandon_entry` of `fuzz_one_original`. -/
def abandonEntry (afl : AflState) (q : ℕ) : AflState := raiseFuzzLevel (settleEntry afl q) q

/-- `abandon_entry` of `mopt_common_fuzzing`, where the update of the books is commented out. -/
def abandonEntryPuppet (afl : AflState) (q : ℕ) : AflState := raiseFuzzLevel afl q

/-! ## The engines -/

/-- `fuzz_one_original`. Its return value only tells the main loop to pick again. -/
def fuzzOneOriginal (B : Build) (s : SaveState) (q : ℕ) (input : FuzzOneInput) :
    Except SaveFault SaveState :=
  if input.customSkips then .ok { s with afl := abandonEntry s.afl q }
  else if skipsEntry s.afl (s.afl.queueBuf q) input then .ok s
  else do
    let t ← fuzzEntry B .classic s q input
    .ok { t with afl := abandonEntry t.afl q }

/-- `mopt_common_fuzzing`, which `pilot_fuzzing` and `core_fuzzing` call. It does not ask the
custom mutators. -/
def moptCommonFuzzing (B : Build) (s : SaveState) (q : ℕ) (input : FuzzOneInput) :
    Except SaveFault SaveState :=
  if skipsEntry s.afl (s.afl.queueBuf q) input then .ok s
  else do
    let t ← fuzzEntry B .mopt s q input
    .ok { t with afl := abandonEntryPuppet t.afl q }

/-- `key_module`. -/
inductive KeyModule where
  | pilot | core | psoUpdating
  deriving DecidableEq, Repr

/-- `fuzz_one`. `-L` decides which engines run. -/
def fuzzOne (B : Build) (key : KeyModule) (s : SaveState) (q : ℕ)
    (original puppet : FuzzOneInput) : Except SaveFault SaveState := do
  let s ← if s.afl.limitTimeSig ≤ 0 then fuzzOneOriginal B s q original else .ok s
  if s.afl.limitTimeSig ≠ 0 ∧ key ≠ .psoUpdating then moptCommonFuzzing B s q puppet else .ok s

/-! ## The main loop -/

/-- The entry that the main loop takes without drawing one. -/
def directPick (afl : AflState) : Option ℕ :=
  if afl.pendingFavored ≠ 0 ∧ afl.smallestFavored ≠ -1 then some afl.smallestFavored.toNat
  else none

end GreenFuzz.AflFuzz
