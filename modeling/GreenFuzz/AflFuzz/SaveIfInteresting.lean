import GreenFuzz.AflFuzz.Calibrate
import GreenFuzz.Library.Fallible

/-!
# Saving interesting executions

`save_if_interesting` of `afl-fuzz-bitmap.c`: an execution that gained coverage becomes a
queue entry, and crashes and hangs are counted and saved. What the target and the sanitizer
binaries do, what `write_to_testcase` makes of the data and the texts of `describe_op` are
inputs.

The labels of the source are functions here: `saveToQueue`, `keepAsCrash` and, for the code
after `may_save_fault`, `saveFault`. A hang that does not repeat can be kept in the queue, and
the code then examines it as a hang once more. That is the recursion of `examineHang` over the
reruns of the target.

Left out are the testcase cache, which is not part of this state, the times of the last crash
and hang, and the files that only inform the user.
-/

set_option autoImplicit false

namespace GreenFuzz.AflFuzz

open Library

/-! ## Simplified traces -/

/-- `simplify_lookup`. -/
def simplifyLookup (b : Byte) : Byte := if b = 0 then 1 else 128

/-- `simplify_trace`: `map_size >> 3` words of 8 bytes, or `map_size >> 2` words of 4 bytes. -/
def simplifyTrace (W : WordSize) (mapSize : ℕ) (bytes : Buffer) : Buffer :=
  (List.range (mapSize / W.n)).foldl
    (fun mem i =>
      if loadWord W.n mem i ≠ 0 then
        fun j => if j / W.n = i then simplifyLookup (mem j) else mem j
      else fun j => if j / W.n = i then 1 else mem j)
    bytes

/-! ## The state -/

/-- How a call can fail to return: the fuzzer ends with an error, or the given reruns do not
suffice. -/
inductive SaveFault where
  | fatal | undecided
  deriving DecidableEq, Repr

/-- The build, with the hash functions. -/
structure Build where
  variant : SkimVariant
  hash32 : ℕ → Buffer → ℕ
  hash64 : ℕ → Buffer → ℕ
  sha1Hex : List Byte → String
  libm : Libm

/-- A build with trivial hashes. -/
def trivialBuild : Build where
  variant := .plain64
  hash32 := fun _ _ => 0
  hash64 := fun _ _ => 0
  sha1Hex := fun _ => ""
  libm := Libm.identity

/-- What `calibrate_case` uses of the build. -/
def Build.platform (B : Build) : Platform where
  wordSize := B.variant.wordSize
  hash64 := B.hash64
  libm := B.libm

/-- `san_abstraction`. -/
inductive SanAbstraction where
  | simplifyTrace | uniqueTrace | coverageIncrease
  deriving DecidableEq, Repr

/-- A file in the output directory. -/
structure SavedFile where
  name : String
  data : List Byte
  deriving DecidableEq

/-- The state that `save_if_interesting` works on. -/
structure SaveState where
  afl : AflState
  totalCrashes : ℕ := 0
  savedCrashes : ℕ := 0
  totalTmouts : ℕ := 0
  savedHangs : ℕ := 0
  savedTmouts : ℕ := 0
  hangTmout : ℕ := 1000
  aflIgnoreTimeouts : Bool := false
  aflKeepTimeouts : Bool := false
  aflSha1Filenames : Bool := false
  fileExtension : Option String := none
  lastKillSignal : ℕ := 0
  fuzzMode : Bool := false
  switchFuzzMode : Bool := false
  sanBinaryLength : ℕ := 0
  sanAbstraction : SanAbstraction := .simplifyTrace
  simplifiedNFuzz : Buffer := fun _ => 0
  nFuzzDup : Buffer := fun _ => 0
  queueFiles : List SavedFile := []
  crashFiles : List SavedFile := []
  hangFiles : List SavedFile := []

/-- What happens when a hang is run again: what `write_to_testcase` makes of the data, with and
without `fix`, what the run does, and the calibration if the case goes to the queue. -/
structure HangRerun where
  write : Bool → List Byte → List Byte := fun _ mem => mem
  run : RunOutcome := {}
  calibration : CalibrationInput := { runs := fun _ => {} }

/-- What a call is given besides the state. `writeToTestcase k` is what the call of
`write_to_testcase` for sanitizer `k` makes of the data, and `describeOp` the text for a file
name. -/
structure SaveInput where
  mem : List Byte
  fault : FsrvRunResult
  writeToTestcase : ℕ → Bool → List Byte → List Byte := fun _ _ mem => mem
  sanRuns : ℕ → RunOutcome := fun _ => {}
  hangRuns : List HangRerun := []
  calibration : CalibrationInput := { runs := fun _ => {} }
  describeOp : ℕ → String := fun _ => ""

/-- `KEEP_UNIQUE_CRASH`. -/
def keepUniqueCrash : ℕ := 25600

/-- `KEEP_UNIQUE_HANG`. -/
def keepUniqueHang : ℕ := 512

/-- The local variables, with the state. -/
structure SaveLocals where
  s : SaveState
  mem : List Byte
  classified : Bool := false
  bitsCounted : Bool := false
  cksumed : Bool := false
  newBits : ℕ := 0
  cksum : ℕ := 0
  isTimeout : ℕ := 0
  keeping : Bool := false

/-- Change the fuzzer state. -/
def SaveLocals.withAfl (c : SaveLocals) (afl : AflState) : SaveLocals :=
  { c with s := { c.s with afl := afl } }

/-! ## What is computed at most once -/

/-- `classify_if_necessary`. -/
def classifyIfNecessary (B : Build) (c : SaveLocals) : SaveLocals :=
  if c.classified then c
  else
    { c.withAfl { c.s.afl with
        traceBits := classifyCounts B.variant.wordSize c.s.afl.mapSize c.s.afl.traceBits } with
      classified := true }

/-- `calculate_cksum_if_necessary`. -/
def calculateCksumIfNecessary (B : Build) (c : SaveLocals) : SaveLocals :=
  if c.cksumed then c
  else
    let c := classifyIfNecessary B c
    { c with cksum := B.hash64 c.s.afl.mapSize c.s.afl.traceBits, cksumed := true }

/-- `calculate_new_bits_if_necessary`. -/
def calculateNewBitsIfNecessary (B : Build) (c : SaveLocals) : Except SaveFault SaveLocals :=
  if c.bitsCounted then .ok c
  else if c.classified then
    let found := hasNewBits B.variant.wordSize c.s.afl .bits
    .ok { c.withAfl found.2 with newBits := found.1, bitsCounted := true }
  else
    match hasNewBitsUnclassified B.variant c.s.afl .bits c.classified with
    | none => .error .undecided
    | some (newBits, afl, classified) =>
        .ok { c.withAfl afl with
          newBits := newBits, classified := classified, bitsCounted := true }

/-- Whether the path frequencies are counted. -/
def AflState.countsPaths (afl : AflState) : Bool := .fast ≤ afl.schedule && afl.schedule ≤ .rare

/-- The saturated increment of a path frequency. -/
def countPathOf (afl : AflState) (cksum : ℕ) : AflState :=
  { afl with
    nFuzz := Function.update afl.nFuzz (cksum % nFuzzSize)
      (if afl.nFuzz (cksum % nFuzzSize) < 0xFFFFFFFF then afl.nFuzz (cksum % nFuzzSize) + 1
        else afl.nFuzz (cksum % nFuzzSize)) }

/-- Update path frequency. -/
def updatePathFrequency (B : Build) (c : SaveLocals) : SaveLocals :=
  if c.s.afl.countsPaths then
    let c := calculateCksumIfNecessary B c
    c.withAfl (countPathOf c.s.afl c.cksum)
  else c

/-! ## Sanitizers -/

/-- The blocks that set `feed_san`, for the abstraction in use. -/
def feedSan (B : Build) (c : SaveLocals) : Except SaveFault (Bool × SaveLocals) :=
  if c.s.sanBinaryLength = 0 then .ok (false, c)
  else
    match c.s.sanAbstraction with
    | .simplifyTrace =>
        let cksum := B.hash32 c.s.afl.mapSize
          (AflFuzz.simplifyTrace B.variant.wordSize c.s.afl.mapSize c.s.afl.traceBits)
        if !bitSet c.s.simplifiedNFuzz cksum then
          .ok (true, { c with s := { c.s with
            simplifiedNFuzz := setBit c.s.simplifiedNFuzz cksum } })
        else .ok (false, c)
    | .coverageIncrease => do
        let c ← calculateNewBitsIfNecessary B c
        .ok (decide (c.newBits ≠ 0), c)
    | .uniqueTrace =>
        let c := classifyIfNecessary B c
        let cksumUnique := B.hash32 c.s.afl.mapSize c.s.afl.traceBits
        if !bitSet c.s.nFuzzDup (u32 c.cksum) then
          .ok (true, { c with s := { c.s with nFuzzDup := setBit c.s.nFuzzDup cksumUnique } })
        else .ok (false, c)

/-- `fuzz_run_target` on a sanitizer binary, whose trace goes to a map of its own. -/
def sanRunTarget (afl : AflState) (outcome : RunOutcome) : AflState :=
  { fuzzRunTarget afl outcome with traceBits := afl.traceBits, totalExecs := afl.totalExecs }

/-- The loop over the sanitizer binaries. The answer is whether one of them crashed, which ends
the loop; other faults are dropped. -/
def sanLoop (input : SaveInput) (c : SaveLocals) : List ℕ → Bool × SaveLocals
  | [] => (false, c)
  | sanIdx :: rest =>
      let c := { c.withAfl (sanRunTarget c.s.afl (input.sanRuns sanIdx)) with
        mem := input.writeToTestcase sanIdx false c.mem }
      if (input.sanRuns sanIdx).fault = .crash then (true, c) else sanLoop input c rest

/-- The whole sanitizer block, which is entered by executions of the wanted kind. -/
def runSanitizers (B : Build) (input : SaveInput) (c : SaveLocals) :
    Except SaveFault (Bool × SaveLocals) := do
  let (feed, c) ← feedSan B c
  if feed then .ok (sanLoop input c (List.range c.s.sanBinaryLength)) else .ok (false, c)

/-- A relation between the locals that the steps before the labels keep: the trace is classified,
hashed and looked up, and its path is counted. -/
structure KeptBySteps (B : Build) (R : SaveLocals → SaveLocals → Prop) : Prop where
  refl : ∀ c, R c c
  trans : ∀ {c d e}, R c d → R d e → R c e
  classify : ∀ c, R c (classifyIfNecessary B c)
  sum : ∀ c cksum, c.classified = true → R c { c with cksum := cksum, cksumed := true }
  look : ∀ c, R c (c.withAfl (hasNewBits B.variant.wordSize c.s.afl .bits).2)
  note : ∀ c newBits, R c { c with newBits := newBits, bitsCounted := true }
  count : ∀ c cksum, R c (c.withAfl (countPathOf c.s.afl cksum))

/-- The sanitizer block keeps the relation as well: it notes a hash, and runs the binaries. -/
structure KeptBySanitizers (B : Build) (input : SaveInput) (R : SaveLocals → SaveLocals → Prop) :
    Prop extends KeptBySteps B R where
  mark : ∀ c simplified dup,
    R c { c with s := { c.s with simplifiedNFuzz := simplified, nFuzzDup := dup } }
  run : ∀ c sanIdx, R c { c.withAfl (sanRunTarget c.s.afl (input.sanRuns sanIdx)) with
    mem := input.writeToTestcase sanIdx false c.mem }

section KeptBySteps

variable {B : Build} {R : SaveLocals → SaveLocals → Prop} {input : SaveInput} {c d : SaveLocals}

theorem KeptBySteps.cksum (kept : KeptBySteps B R) (c : SaveLocals) :
    R c (calculateCksumIfNecessary B c) := by
  have classified : (classifyIfNecessary B c).classified = true := by
    unfold classifyIfNecessary
    split
    · assumption
    · rfl
  unfold calculateCksumIfNecessary
  split
  · exact kept.refl c
  · exact kept.trans (kept.classify c) (kept.sum _ _ classified)

theorem KeptBySteps.frequency (kept : KeptBySteps B R) (c : SaveLocals) :
    R c (updatePathFrequency B c) := by
  unfold updatePathFrequency
  split
  · exact kept.trans (kept.cksum c) (kept.count _ _)
  · exact kept.refl c

theorem KeptBySteps.newBits (kept : KeptBySteps B R)
    (found : calculateNewBitsIfNecessary B c = .ok d) : R c d := by
  have classified := kept.classify c
  unfold calculateNewBitsIfNecessary at found
  split at found
  · cases found
    exact kept.refl c
  · split at found
    · cases found
      exact kept.trans (kept.look c) (kept.note _ _)
    · rename_i raw
      unfold hasNewBitsUnclassified at found
      split at found
      · cases found
      · rename_i result
        split at result
        · cases result
        · cases result
          cases found
          exact kept.note c 0
        · cases result
          cases found
          unfold classifyIfNecessary at classified
          rw [if_neg raw] at classified
          exact kept.trans classified (kept.trans (kept.look _) (kept.note _ _))

theorem KeptBySteps.feedSan {feed : Bool} (kept : KeptBySteps B R)
    (mark : ∀ c simplified dup,
      R c { c with s := { c.s with simplifiedNFuzz := simplified, nFuzzDup := dup } })
    (fed : feedSan B c = .ok (feed, d)) : R c d := by
  unfold AflFuzz.feedSan at fed
  split at fed
  · cases fed
    exact kept.refl c
  · split at fed
    · dsimp only at fed
      split at fed
      · cases fed
        exact mark c _ c.s.nFuzzDup
      · cases fed
        exact kept.refl c
    · obtain ⟨found, counted, same⟩ := bind_eq_ok_iff.mp fed
      cases same
      exact kept.newBits counted
    · dsimp only at fed
      split at fed
      · cases fed
        exact kept.trans (kept.classify c) (mark _ _ _)
      · cases fed
        exact kept.classify c

/-- What precedes the file in `save_to_queue`. -/
theorem KeptBySteps.counted (kept : KeptBySteps B R)
    (found : calculateNewBitsIfNecessary B (calculateCksumIfNecessary B c) = .ok d) : R c d :=
  kept.trans (kept.cksum c) (kept.newBits found)

/-- The loop over the sanitizer binaries keeps what each of their runs keeps. -/
theorem KeptBySteps.sanLoop (kept : KeptBySteps B R)
    (run : ∀ c sanIdx, R c { c.withAfl (sanRunTarget c.s.afl (input.sanRuns sanIdx)) with
      mem := input.writeToTestcase sanIdx false c.mem })
    (c : SaveLocals) (indices : List ℕ) : R c (sanLoop input c indices).2 := by
  induction indices generalizing c with
  | nil => exact kept.refl c
  | cons sanIdx rest ih =>
      unfold AflFuzz.sanLoop
      dsimp only
      split
      · exact run c sanIdx
      · exact kept.trans (run c sanIdx) (ih _)

theorem KeptBySanitizers.sanitizers {crashed : Bool} (kept : KeptBySanitizers B input R)
    (ran : runSanitizers B input c = .ok (crashed, d)) : R c d := by
  obtain ⟨⟨feed, fed⟩, result, rest⟩ := bind_eq_ok_iff.mp ran
  have same := kept.feedSan kept.mark result
  dsimp only at rest
  split at rest
  · have last : (AflFuzz.sanLoop input fed (List.range fed.s.sanBinaryLength)).2 = d :=
      congrArg Prod.snd (Except.ok.inj rest)
    rw [← last]
    exact kept.trans same (kept.sanLoop kept.run fed _)
  · cases rest
    exact same

end KeptBySteps

/-! ## Files -/

/-- A number with leading zeros up to the given width. -/
def zeroPadded (width n : ℕ) : String :=
  "".pushn '0' (width - (toString n).length) ++ toString n

/-- `%06u`. -/
def pad6 (n : ℕ) : String := zeroPadded 6 n

/-- `%02u`. -/
def pad2 (n : ℕ) : String := zeroPadded 2 n

/-- The end of a file name. -/
def SaveState.suffix (s : SaveState) : String :=
  match s.fileExtension with
  | none => ""
  | some extension => "." ++ extension

/-- `permissive_create` and the write: an existing file is an error, unless names are hashes. -/
def createFile (s : SaveState) (files : List SavedFile) (name : String) (mem : List Byte) :
    Except SaveFault (List SavedFile) :=
  if files.any fun file => file.name = name then
    if s.aflSha1Filenames then .ok files else .error .fatal
  else .ok (files ++ [⟨name, mem⟩])

/-- The name of a queue file. -/
def queueFn (B : Build) (input : SaveInput) (c : SaveLocals) : String :=
  if c.s.aflSha1Filenames then B.sha1Hex c.mem ++ c.s.suffix
  else "id:" ++ pad6 c.s.afl.queuedItems ++ "," ++ input.describeOp (c.newBits + c.isTimeout) ++
    c.s.suffix

/-- The name of a crash file. -/
def crashFn (B : Build) (input : SaveInput) (c : SaveLocals) : String :=
  if c.s.aflSha1Filenames then B.sha1Hex c.mem ++ c.s.suffix
  else "id:" ++ pad6 c.s.savedCrashes ++ ",sig:" ++ pad2 c.s.lastKillSignal ++ "," ++
    input.describeOp 0 ++ c.s.suffix

/-- The name of a hang file. -/
def hangFn (B : Build) (input : SaveInput) (c : SaveLocals) : String :=
  if c.s.aflSha1Filenames then B.sha1Hex c.mem ++ c.s.suffix
  else "id:" ++ pad6 c.s.savedHangs ++ "," ++ input.describeOp 0 ++ c.s.suffix

/-! ## The labels -/

/-- The new entry gets its checksum, its coverage flag and its path frequency. -/
def describeEntry (afl : AflState) (q newBits cksum : ℕ) : AflState :=
  let afl := afl.modifyEntry q fun e => { e with execCksum := cksum }
  let afl :=
    if newBits = 2 then
      { afl.modifyEntry q fun e => { e with hasNewCov := true } with
        queuedWithCov := u32 (afl.queuedWithCov + 1) }
    else afl
  if afl.countsPaths then
    { afl.modifyEntry q fun e => { e with nFuzzEntry := cksum % nFuzzSize } with
      nFuzz := Function.update afl.nFuzz (cksum % nFuzzSize) 1 }
  else afl

/-- `save_to_queue`. -/
def saveToQueue (B : Build) (input : SaveInput) (c : SaveLocals) : Except SaveFault SaveLocals := do
  let c := calculateCksumIfNecessary B c
  let c ← calculateNewBitsIfNecessary B c
  let files ← createFile c.s c.s.queueFiles (queueFn B input c) c.mem
  let q := c.s.afl.queuedItems
  let afl := describeEntry (addToQueue c.s.afl c.mem.length false) q c.newBits c.cksum
  let calibrated := calibrateCase B.platform afl q input.calibration
  if calibrated.1 = .error then .error .fatal
  else
    .ok { c with
      s := { c.s with
        afl := calibrated.2
        queueFiles := files
        fuzzMode := c.s.fuzzMode && !(c.s.switchFuzzMode && !c.s.afl.nonInstrumentedMode) }
      keeping := true }

/-- The state in which `save_to_queue` calls `calibrate_case`. -/
def SaveLocals.withEntry (c : SaveLocals) : AflState :=
  describeEntry (addToQueue c.s.afl c.mem.length false) c.s.afl.queuedItems c.newBits c.cksum

/-- **A case that was queued** has its new bits counted and its file written, and is calibrated. -/
theorem saveToQueue_cases {B : Build} {input : SaveInput} {c d : SaveLocals}
    (queued : saveToQueue B input c = .ok d) :
    ∃ counted files,
      calculateNewBitsIfNecessary B (calculateCksumIfNecessary B c) = .ok counted ∧
      createFile counted.s counted.s.queueFiles (queueFn B input counted) counted.mem =
        .ok files ∧
      d = { counted with
        s := { counted.s with
          afl := (calibrateCase B.platform counted.withEntry counted.s.afl.queuedItems
            input.calibration).2
          queueFiles := files
          fuzzMode := counted.s.fuzzMode &&
            !(counted.s.switchFuzzMode && !counted.s.afl.nonInstrumentedMode) }
        keeping := true } := by
  obtain ⟨counted, found, rest⟩ := bind_eq_ok_iff.mp queued
  obtain ⟨files, created, rest⟩ := bind_eq_ok_iff.mp rest
  dsimp only at rest
  split at rest
  · cases rest
  · cases rest
    exact ⟨counted, files, found, created, rfl⟩

/-- The check for a trace that is new to the map of its kind of fault. `trace_bits` is simplified
in place. -/
def newToMap (B : Build) (afl : AflState) (map : VirginMap) : Bool × AflState :=
  if afl.nonInstrumentedMode then (true, afl)
  else
    let found := hasNewBits B.variant.wordSize { afl with
      traceBits := AflFuzz.simplifyTrace B.variant.wordSize afl.mapSize afl.traceBits } map
    (decide (found.1 ≠ 0), found.2)

/-- `keep_as_crash`. -/
def keepAsCrash (B : Build) (input : SaveInput) (c : SaveLocals) : Except SaveFault SaveLocals :=
  let c := { c with s := { c.s with totalCrashes := u64 (c.s.totalCrashes + 1) } }
  if keepUniqueCrash ≤ c.s.savedCrashes then .ok c
  else
    let found := newToMap B c.s.afl .crash
    let c := c.withAfl found.2
    if found.1 then do
      let files ← createFile c.s c.s.crashFiles (crashFn B input c) c.mem
      .ok { c with s := { c.s with
        savedCrashes := u64 (c.s.savedCrashes + 1), crashFiles := files } }
    else .ok c

/-- The end of the case `FSRV_RUN_TMOUT`, which saves a genuine hang. -/
def keepAsHang (B : Build) (input : SaveInput) (c : SaveLocals) : Except SaveFault SaveLocals := do
  let files ← createFile c.s c.s.hangFiles (hangFn B input c) c.mem
  .ok { c with s := { c.s with savedHangs := u64 (c.s.savedHangs + 1), hangFiles := files } }

/-- The case `FSRV_RUN_TMOUT` up to the rerun: whether the hang is a new one. -/
def countHang (B : Build) (c : SaveLocals) : Bool × SaveLocals :=
  let c := { c with s := { c.s with totalTmouts := u64 (c.s.totalTmouts + 1) } }
  if keepUniqueHang ≤ c.s.savedHangs then (false, c)
  else
    let found := newToMap B c.s.afl .tmout
    let c := c.withAfl found.2
    (found.1, if found.1 then { c with isTimeout := 0x80 } else c)

/-- Write the case and run the target with the longer timeout. -/
def rerunHang (c : SaveLocals) (rerun : HangRerun) : SaveLocals :=
  let written := rerun.write false c.mem
  { c.withAfl (fuzzRunTarget c.s.afl rerun.run) with
    mem := if written ≠ [] then written else rerun.write true c.mem
    classified := false
    bitsCounted := false
    cksumed := false }

/-- The case `FSRV_RUN_TMOUT`. -/
def examineHang (B : Build) (input : SaveInput) :
    List HangRerun → SaveLocals → Except SaveFault SaveLocals
  | reruns, c =>
      let counted := countHang B c
      if !counted.1 then .ok counted.2
      else if counted.2.s.hangTmout ≤ counted.2.s.afl.execTmout then keepAsHang B input counted.2
      else
        match reruns with
        | [] => .error .undecided
        | rerun :: reruns =>
            let c := rerunHang counted.2 rerun
            if !c.s.afl.stopSoon && rerun.run.fault = .crash then keepAsCrash B input c
            else if c.s.afl.stopSoon || rerun.run.fault ≠ .tmout then
              if c.s.aflKeepTimeouts then do
                let c ← saveToQueue B { input with calibration := rerun.calibration }
                  { c with s := { c.s with savedTmouts := u64 (c.s.savedTmouts + 1) } }
                -- the fault is the same as before, so the case is entered again
                examineHang B input reruns c
              else .ok c
            else keepAsHang B input c

/-- The induction on the reruns, once: what the parts of the case do, and what carries over from
one part to the next, the case does. -/
theorem examineHang_rule {B : Build} {input : SaveInput} {R : SaveLocals → SaveLocals → Prop}
    (trans : ∀ {c d e}, R c d → R d e → R c e) (count : ∀ c, R c (countHang B c).2)
    (run : ∀ c rerun, R c (rerunHang c rerun))
    (hang : ∀ {c d}, keepAsHang B input c = .ok d → R c d)
    (crash : ∀ {c d}, keepAsCrash B input c = .ok d → R c d)
    (queue : ∀ {c d} calibration, saveToQueue B { input with calibration := calibration }
      { c with s := { c.s with savedTmouts := u64 (c.s.savedTmouts + 1) } } = .ok d → R c d)
    (reruns : List HangRerun) {c d : SaveLocals}
    (done : examineHang B input reruns c = .ok d) : R c d := by
  induction reruns generalizing c with
  | nil =>
      simp only [examineHang] at done
      split at done
      · cases done
        exact count c
      · split at done
        · exact trans (count c) (hang done)
        · cases done
  | cons rerun reruns ih =>
      simp only [examineHang] at done
      split at done
      · cases done
        exact count c
      · split at done
        · exact trans (count c) (hang done)
        · have ran : R c (rerunHang (countHang B c).2 rerun) := trans (count c) (run _ rerun)
          split at done
          · exact trans ran (crash done)
          · split at done
            · split at done
              · obtain ⟨kept, queued, again⟩ := bind_eq_ok_iff.mp done
                exact trans ran (trans (queue rerun.calibration queued) (ih again))
              · cases done
                exact ran
            · exact trans ran (hang done)

/-- The code after `may_save_fault`. -/
def saveFault (B : Build) (input : SaveInput) (fault : FsrvRunResult) (c : SaveLocals) :
    Except SaveFault SaveLocals :=
  match fault with
  | .tmout => examineHang B input input.hangRuns c
  | .crash => keepAsCrash B input c
  | .error => .error .fatal
  | _ => .ok c

/-- The result of the sanitizers as a fault. -/
def sanFault (crashed : Bool) : FsrvRunResult := if crashed then .crash else .ok

/-- The block for an execution of the wanted kind. -/
def saveWanted (B : Build) (input : SaveInput) (c : SaveLocals) : Except SaveFault SaveLocals := do
  let (crashed, c) ← runSanitizers B input c
  let c ← calculateNewBitsIfNecessary B c
  if c.newBits = 0 then
    if crashed then saveFault B input .crash c
    else
      .ok { c with s := { c.s with
        totalCrashes :=
          if c.s.afl.crashMode ≠ .ok then u64 (c.s.totalCrashes + 1) else c.s.totalCrashes } }
  else do
    let c ← saveToQueue B input c
    saveFault B input (sanFault crashed) c

/-- `save_if_interesting`. The answer is whether an entry was added to the queue. -/
def saveIfInteresting (B : Build) (s : SaveState) (input : SaveInput) :
    Except SaveFault (Bool × SaveState) :=
  if input.mem = [] then .ok (false, s)
  else if input.fault = .tmout ∧ s.aflIgnoreTimeouts then
    let c := updatePathFrequency B { s := s, mem := input.mem }
    .ok (false, c.s)
  else do
    let c := updatePathFrequency B { s := s, mem := input.mem }
    let c ←
      if input.fault = s.afl.crashMode then saveWanted B input c
      else saveFault B input input.fault c
    .ok (c.keeping, c.s)

end GreenFuzz.AflFuzz
