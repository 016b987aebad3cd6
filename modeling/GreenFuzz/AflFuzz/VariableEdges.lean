import GreenFuzz.AflFuzz.VarBytes
import GreenFuzz.AflFuzz.DryRun
import GreenFuzz.AflFuzz.HangRequeue
import GreenFuzz.AflFuzz.SanFeeding

/-!
# Variable edges

An edge that `calibrate_case` marks as variable should be one that varies: two executions of the
input of the entry had different hit counts there. The executions are the runs of the calibration
and the execution that led to it, whose trace is the reference when the entry has a checksum.

The callers leave the right reference. `save_if_interesting` classifies the trace once before it
queues a case, also after a hang was run again, and the dry run and a later calibration start
without a checksum. But the reference is only good if the execution that led to the call read the
same bytes as the runs. A custom mutator can break this: `calibrate_case` is given the data from
before `queue_new_entry` with the length from after it, and post-processes it once more.

So the executions carry the bytes that the target reads. **In every run where all executions around
a calibration read the input of the entry, every calibration marks only edges that vary, and a
deterministic target changes no variable byte at all** (`variable_edges_vary`). A post-processor
that puts a byte before the data makes a deterministic target variable (`steady_edge_marked`).
-/

set_option autoImplicit false

namespace GreenFuzz.AflFuzz

open Library

/-! ## Calibrations and their executions -/

/-- An execution: the bytes that the target reads, and the trace that it leaves. -/
structure TargetRun where
  bytes : List Byte
  trace : Buffer

/-- What the target reads when it is given the file of an entry, and in the runs of a
calibration. -/
structure Readings where
  own : List Byte
  runs : ℕ → List Byte

/-- A call of `calibrate_case`, with the execution that led to it, if there was one. -/
structure CalibrationCall where
  afl : AflState
  q : ℕ
  calibration : CalibrationInput
  readings : Readings
  led : Option TargetRun

/-- The state after the call. -/
def CalibrationCall.after (P : Platform) (call : CalibrationCall) : AflState :=
  (calibrateCase P call.afl call.q call.calibration).2

/-- The executions: the one that led to the call, and those that the calibration makes. -/
def CalibrationCall.Ran (P : Platform) (call : CalibrationCall) (e : TargetRun) : Prop :=
  call.led = some e ∨ ∃ k, RunsTarget P call.afl call.q call.calibration k ∧
    e = ⟨call.readings.runs k, (call.calibration.runs k).trace⟩

/-- The classified hit counts of an execution. -/
def CalibrationCall.hits (P : Platform) (call : CalibrationCall) (e : TargetRun) : Buffer :=
  classifyCounts P.wordSize call.afl.mapSize e.trace

/-- The target reads the input of the entry in the execution that leads to the call and in the
runs. -/
def CalibrationCall.ReadsOwnInput (call : CalibrationCall) : Prop :=
  (∀ e, call.led = some e → e.bytes = call.readings.own) ∧
    ∀ k, call.readings.runs k = call.readings.own

/-- The hit counts of an execution of the input of the entry. -/
def CalibrationCall.OwnHits (P : Platform) (call : CalibrationCall) (hits : Buffer) : Prop :=
  ∃ e, call.Ran P e ∧ e.bytes = call.readings.own ∧ hits = call.hits P e

/-- Every byte that the call marks was not marked, and two executions of the input of the entry
differ there. -/
def CalibrationCall.MarksVarying (P : Platform) (call : CalibrationCall) : Prop :=
  ∀ i, (call.after P).varBytes i ≠ call.afl.varBytes i →
    MarkedFrom (call.OwnHits P) call.afl (call.after P) i

/-- The executions are those of a deterministic target. -/
def CalibrationCall.Follows (P : Platform) (target : List Byte → Buffer)
    (call : CalibrationCall) : Prop :=
  ∀ e, call.Ran P e → e.trace = target e.bytes

/-- A trace that serves as the reference is the classified one of the execution that led to the
call. -/
def CalibrationCall.Classified (P : Platform) (call : CalibrationCall) : Prop :=
  call.afl.cmplogMode = false → (call.afl.queueBuf call.q).execCksum ≠ 0 →
    ∃ e, call.led = some e ∧ call.afl.traceBits = call.hits P e

variable {P : Platform} {call : CalibrationCall} {target : List Byte → Buffer}

/-- **With a classified reference, a calibration whose executions read the input of the entry marks
only bytes that vary.** -/
theorem CalibrationCall.Classified.marksVarying (classified : call.Classified P)
    (own : call.ReadsOwnInput) : call.MarksVarying P := by
  intro i changed
  have marked := calibrateCase_marks P call.afl call.q call.calibration changed
  have hits {trace : Buffer} (compared : Compared P call.afl call.q call.calibration trace) :
      call.OwnHits P trace := by
    rcases compared with ⟨mode, known, same⟩ | ⟨k, runs, same⟩
    · obtain ⟨e, led, left⟩ := classified mode known
      exact ⟨e, .inl led, own.1 e led, same.trans left⟩
    · exact ⟨_, .inr ⟨k, runs, rfl⟩, own.2 k, same⟩
  obtain ⟨d, e, first, second, varies⟩ := marked.differ
  exact ⟨marked.inside, marked.unset, marked.set, marked.cleared, d, e, hits first, hits second,
    varies⟩

/-- A deterministic target shows nothing that varies. -/
theorem CalibrationCall.MarksVarying.unchanged (marks : call.MarksVarying P)
    (follows : call.Follows P target) : (call.after P).varBytes = call.afl.varBytes := by
  funext i
  by_contra changed
  obtain ⟨d, e, ⟨first, ran, own, hits⟩, ⟨second, ranToo, ownToo, hitsToo⟩, varies⟩ :=
    (marks i changed).differ
  refine varies ?_
  rw [hits, hitsToo, CalibrationCall.hits, CalibrationCall.hits, follows first ran,
    follows second ranToo, own, ownToo]

/-! ## The calibrations of the callers -/

/-- An execution and the call of `save_if_interesting` that follows it, with what the target reads
in the execution, in the reruns of a hang, and around the calibrations. -/
structure Find where
  s : SaveState
  run : RunOutcome
  bytes : List Byte
  input : SaveInput
  readings : Readings
  hangBytes : ℕ → List Byte
  hangReadings : ℕ → Readings

/-- The state after the execution. -/
def Find.executed (f : Find) : SaveState := { f.s with afl := fuzzRunTarget f.s.afl f.run }

/-- The calibration in `save_to_queue`. -/
def queueCalls (B : Build) (c : SaveLocals) (calibration : CalibrationInput) (readings : Readings)
    (led : TargetRun) : List CalibrationCall :=
  match calculateNewBitsIfNecessary B (calculateCksumIfNecessary B c) with
  | .error _ => []
  | .ok c =>
      [{ afl := describeEntry (addToQueue c.s.afl c.mem.length false) c.s.afl.queuedItems c.newBits
            c.cksum
         q := c.s.afl.queuedItems
         calibration := calibration
         readings := readings
         led := some led }]

/-- The calibrations in the case `FSRV_RUN_TMOUT`, from the `k`-th rerun on. -/
def hangCalls (B : Build) (f : Find) : ℕ → List HangRerun → SaveLocals → List CalibrationCall
  | _, [], _ => []
  | k, rerun :: reruns, c =>
      let counted := countHang B c
      if !counted.1 then []
      else if counted.2.s.hangTmout ≤ counted.2.s.afl.execTmout then []
      else
        let again := rerunHang counted.2 rerun
        if !again.s.afl.stopSoon && rerun.run.fault = .crash then []
        else if again.s.afl.stopSoon || rerun.run.fault ≠ .tmout then
          if again.s.aflKeepTimeouts then
            queueCalls B (keptHang B c rerun) rerun.calibration (f.hangReadings k)
                ⟨f.hangBytes k, rerun.run.trace⟩ ++
              match saveToQueue B { f.input with calibration := rerun.calibration }
                (keptHang B c rerun) with
              | .error _ => []
              | .ok c => hangCalls B f (k + 1) reruns c
          else []
        else []

/-- The calibration of an execution of the wanted kind. -/
def wantedCalls (B : Build) (f : Find) : List CalibrationCall :=
  match judgeWanted B f.executed f.input with
  | .error _ => []
  | .ok (_, c) =>
      if c.newBits = 0 then []
      else queueCalls B c f.input.calibration f.readings ⟨f.bytes, f.run.trace⟩

/-- The calibrations of a call of `save_if_interesting`. -/
def findCalls (B : Build) (f : Find) : List CalibrationCall :=
  if f.input.mem = [] then []
  else if f.input.fault = .tmout ∧ f.executed.aflIgnoreTimeouts then []
  else if f.input.fault = f.executed.afl.crashMode then wantedCalls B f
  else if f.input.fault = .tmout then
    hangCalls B f 0 f.input.hangRuns
      (updatePathFrequency B { s := f.executed, mem := f.input.mem })
  else []

/-- The calibration of a seed. -/
def seedCalls (opts : DryRunOptions) (seed : SeedInput) (readings : Readings) (q : ℕ)
    (afl : AflState) : List CalibrationCall :=
  if (afl.queueBuf q).disabled ∨ (afl.queueBuf q).len = 0 then []
  else [⟨spareSeed opts q afl, q, seed.calibration, readings, none⟩]

/-- The calibrations of the dry run. -/
def dryRunCalls (B : Build) (opts : DryRunOptions) (seeds : ℕ → SeedInput)
    (readings : ℕ → Readings) : DryRun → List ℕ → List CalibrationCall
  | _, [] => []
  | d, q :: rest =>
      seedCalls opts (seeds q) (readings q) q d.s.afl ++
        match dryRunEntry B opts (seeds q) d q with
        | .error _ => []
        | .ok d => if d.stopped then [] else dryRunCalls B opts seeds readings d rest

/-- The calibration of an entry whose calibration failed. -/
def againCalls (afl : AflState) (q : ℕ) (input : FuzzOneInput) (readings : Readings) :
    List CalibrationCall :=
  if (afl.queueBuf q).calFailed = 0 then []
  else if (afl.queueBuf q).calFailed < calChances then
    [⟨afl.modifyEntry q fun e => { e with execCksum := 0 }, q, input.recalibration, readings, none⟩]
  else []

/-! ## The campaign -/

/-- What the fuzzer does, with the calibrations that it makes: it saves what an execution found,
also one of another fuzzer's files, it makes the dry run of seeds that were just read, it
calibrates an entry again, and it does everything that does not write `var_bytes`. -/
inductive CampaignStep (B : Build) : AflState → List CalibrationCall → AflState → Prop where
  | find (f : Find) {kept : Bool} {after : SaveState}
      (done : saveIfInteresting B f.executed f.input = .ok (kept, after)) :
      CampaignStep B f.s.afl (findCalls B f) after.afl
  | dryRun (opts : DryRunOptions) (seeds : ℕ → SeedInput) (readings : ℕ → Readings) {d e : DryRun}
      (fresh : ∀ q < d.s.afl.queuedItems, (d.s.afl.queueBuf q).execCksum = 0)
      (done : performDryRun B opts seeds d = .ok e) :
      CampaignStep B d.s.afl
        (dryRunCalls B opts seeds readings d (dryRunOrder opts d.s.afl.queuedItems)) e.s.afl
  | again {afl after : AflState} (q : ℕ) (input : FuzzOneInput) (readings : Readings) {leave : Bool}
      (done : calibrateAgain B afl q input = .ok (leave, after)) :
      CampaignStep B afl (againCalls afl q input readings) after
  | other {afl after : AflState} (same : after.varBytes = afl.varBytes) :
      CampaignStep B afl [] after

/-- A campaign from a state on, with the calibrations that were made. -/
def campaign (B : Build) (start : AflState) :
    TransitionSystem (AflState × List CalibrationCall) where
  init c := c = (start, [])
  step c next := ∃ calls, CampaignStep B c.1 calls next.1 ∧ next.2 = c.2 ++ calls

/-! ## What the parts of `save_if_interesting` leave in the map -/

section Saving

variable {B : Build} {input : SaveInput} {start : AflState} {trace : Buffer} {c d : SaveLocals}

/-- The map holds the trace of an execution, which is classified if the locals say so. -/
structure HoldsTrace (B : Build) (start : AflState) (trace : Buffer) (c : SaveLocals) : Prop where
  mapSize : c.s.afl.mapSize = start.mapSize
  varBytes : c.s.afl.varBytes = start.varBytes
  raw : c.classified = false → c.s.afl.traceBits = trace
  done : c.classified = true →
    c.s.afl.traceBits = classifyCounts B.variant.wordSize start.mapSize trace
  cksumed : c.cksumed = true → c.classified = true

theorem HoldsTrace.classify (holds : HoldsTrace B start trace c) :
    HoldsTrace B start trace (classifyIfNecessary B c) ∧
      (classifyIfNecessary B c).classified = true := by
  unfold classifyIfNecessary
  split
  · rename_i classified
    exact ⟨holds, classified⟩
  · rename_i raw
    refine ⟨⟨holds.mapSize, holds.varBytes, fun unset => (by cases unset), fun _ => ?_,
      fun _ => rfl⟩, rfl⟩
    show classifyCounts B.variant.wordSize c.s.afl.mapSize c.s.afl.traceBits = _
    rw [holds.mapSize, holds.raw (Bool.eq_false_of_not_eq_true raw)]

/-- The steps before the labels keep the trace, and the mark that it is classified. -/
theorem keptBySanitizers_holdsTrace (B : Build) (input : SaveInput) (start : AflState)
    (trace : Buffer) : KeptBySanitizers B input fun c d => HoldsTrace B start trace c →
      HoldsTrace B start trace d ∧ (c.classified = true → d.classified = true) where
  refl _ holds := ⟨holds, id⟩
  trans first second holds :=
    have middle := first holds
    have last := second middle.1
    ⟨last.1, fun classified => last.2 (middle.2 classified)⟩
  classify _ holds := ⟨holds.classify.1, fun _ => holds.classify.2⟩
  sum _ _ classified holds :=
    ⟨⟨holds.mapSize, holds.varBytes, holds.raw, holds.done, fun _ => classified⟩, id⟩
  look c holds := by
    obtain ⟨_, _, same⟩ := hasNewBits_bits B.variant.wordSize c.s.afl
    rw [same]
    exact ⟨⟨holds.mapSize, holds.varBytes, holds.raw, holds.done, holds.cksumed⟩, id⟩
  note _ _ holds :=
    ⟨⟨holds.mapSize, holds.varBytes, holds.raw, holds.done, holds.cksumed⟩, id⟩
  count _ _ holds :=
    ⟨⟨holds.mapSize, holds.varBytes, holds.raw, holds.done, holds.cksumed⟩, id⟩
  mark _ _ _ holds :=
    ⟨⟨holds.mapSize, holds.varBytes, holds.raw, holds.done, holds.cksumed⟩, id⟩
  run c sanIdx holds := by
    -- the sanitizer binaries have maps of their own
    obtain ⟨_, _, _, _, ran⟩ := sanRunTarget_eq c.s.afl (input.sanRuns sanIdx)
    rw [ran]
    exact ⟨⟨holds.mapSize, holds.varBytes, holds.raw, holds.done, holds.cksumed⟩, id⟩

theorem HoldsTrace.cksum (holds : HoldsTrace B start trace c) :
    HoldsTrace B start trace (calculateCksumIfNecessary B c) ∧
      (calculateCksumIfNecessary B c).classified = true := by
  unfold calculateCksumIfNecessary
  split
  · rename_i cksumed
    exact ⟨holds, holds.cksumed cksumed⟩
  · obtain ⟨after, classified⟩ := holds.classify
    exact ⟨⟨after.mapSize, after.varBytes, after.raw, after.done, fun _ => classified⟩, classified⟩

/-- The first half of a call keeps the trace of the execution. -/
theorem holdsTrace_judged {f : Find} {crashed : Bool}
    (judged : judgeWanted B f.executed f.input = .ok (crashed, c)) :
    HoldsTrace B f.s.afl f.run.trace c := by
  have executed : HoldsTrace B f.s.afl f.run.trace { s := f.executed, mem := f.input.mem } := by
    obtain ⟨_, _, _, ran⟩ := fuzzRunTarget_eq f.s.afl f.run
    unfold Find.executed
    rw [ran]
    exact ⟨rfl, rfl, fun _ => rfl, fun set => (by cases set), fun set => (by cases set)⟩
  obtain ⟨⟨hit, sane⟩, sanitized, rest⟩ := bind_eq_ok_iff.mp judged
  obtain ⟨counted, found, result⟩ := bind_eq_ok_iff.mp rest
  cases result
  have kept := keptBySanitizers_holdsTrace B f.input f.s.afl f.run.trace
  have counted := (kept.frequency _ executed).1
  exact (kept.newBits found (kept.sanitizers sanitized counted).1).1

/-- A rerun of a hang puts a trace of its own into the map. -/
theorem holdsTrace_keptHang (B : Build) (c : SaveLocals) (rerun : HangRerun) :
    HoldsTrace B (countHang B c).2.s.afl rerun.run.trace (keptHang B c rerun) := by
  obtain ⟨_, _, _, ran⟩ := fuzzRunTarget_eq (countHang B c).2.s.afl rerun.run
  unfold keptHang rerunHang SaveLocals.withAfl
  rw [ran]
  exact ⟨rfl, rfl, fun _ => rfl, fun set => (by cases set), fun set => (by cases set)⟩

/-! ## The calibrations of a find -/

/-- The references of the calls are classified, and a byte that changed was changed by one of
them. -/
structure CallsAccount (P : Platform) (before : AflState) (calls : List CalibrationCall)
    (after : AflState) : Prop where
  classified : ∀ call ∈ calls, call.Classified P
  changed : ∀ i, after.varBytes i ≠ before.varBytes i →
    ∃ call ∈ calls, (call.after P).varBytes i ≠ call.afl.varBytes i

variable {P : Platform} {before middle after : AflState} {calls later : List CalibrationCall}

theorem CallsAccount.of_same (same : after.varBytes = before.varBytes) :
    CallsAccount P before [] after where
  classified _ member := absurd member List.not_mem_nil
  changed i changed := absurd (congrFun same i) changed

theorem CallsAccount.trans (first : CallsAccount P before calls middle)
    (second : CallsAccount P middle later after) :
    CallsAccount P before (calls ++ later) after where
  classified call member := (List.mem_append.mp member).elim (first.classified call)
    (second.classified call)
  changed i changed := by
    by_cases early : middle.varBytes i = before.varBytes i
    · obtain ⟨call, member, moved⟩ := second.changed i (by rwa [early])
      exact ⟨call, List.mem_append_right _ member, moved⟩
    · obtain ⟨call, member, moved⟩ := first.changed i early
      exact ⟨call, List.mem_append_left _ member, moved⟩

/-- What does not write `var_bytes` can be put before and after. -/
theorem CallsAccount.widen {start done : AflState} (accounted : CallsAccount P before calls after)
    (first : before.varBytes = start.varBytes) (last : done.varBytes = after.varBytes) :
    CallsAccount P start calls done where
  classified := accounted.classified
  changed i changed := accounted.changed i (by rwa [← last, first])

/-- One call accounts for what it changes. -/
theorem accounted_call (call : CalibrationCall) (classified : call.Classified P) :
    CallsAccount P call.afl [call] (call.after P) where
  classified _ member := List.mem_singleton.mp member ▸ classified
  changed _ changed := ⟨call, List.mem_singleton_self call, changed⟩

theorem describeEntry_eq (afl : AflState) (q newBits cksum : ℕ) :
    ∃ queue covered paths, describeEntry afl q newBits cksum =
      { afl with queueBuf := queue, queuedWithCov := covered, nFuzz := paths } := by
  unfold describeEntry AflState.modifyEntry
  dsimp only
  split <;> split <;> exact ⟨_, _, _, rfl⟩

/-- **A case that is queued is calibrated with the classified trace of its execution.** -/
theorem accounted_saveToQueue (holds : HoldsTrace B start trace c) (bytes : List Byte)
    (readings : Readings) (queued : saveToQueue B input c = .ok d) :
    CallsAccount B.platform start (queueCalls B c input.calibration readings ⟨bytes, trace⟩)
      d.s.afl := by
  obtain ⟨summed, classified⟩ := holds.cksum
  obtain ⟨counted, found, rest⟩ := bind_eq_ok_iff.mp queued
  obtain ⟨files, created, rest⟩ := bind_eq_ok_iff.mp rest
  obtain ⟨after, still⟩ :=
    (keptBySanitizers_holdsTrace B input start trace).newBits found summed
  obtain ⟨_, _, _, described⟩ := describeEntry_eq
    (addToQueue counted.s.afl counted.mem.length false) counted.s.afl.queuedItems counted.newBits
    counted.cksum
  unfold queueCalls
  rw [found]
  dsimp only at rest
  split at rest
  · cases rest
  · cases rest
    have varBytes : (describeEntry (addToQueue counted.s.afl counted.mem.length false)
        counted.s.afl.queuedItems counted.newBits counted.cksum).varBytes = start.varBytes := by
      rw [described]
      exact after.varBytes
    refine (accounted_call _ fun _ _ => ⟨_, rfl, ?_⟩).widen varBytes rfl
    show (describeEntry _ _ _ _).traceBits = classifyCounts _ (describeEntry _ _ _ _).mapSize _
    rw [described]
    exact (after.done (still classified)).trans
      (congrArg (classifyCounts _ · trace) after.mapSize.symm)

theorem newToMap_varBytes (B : Build) (afl : AflState) (map : VirginMap) :
    (newToMap B afl map).2.varBytes = afl.varBytes := by
  unfold newToMap
  split
  · rfl
  · unfold hasNewBits
    dsimp only
    cases map <;> split <;> rfl

theorem countHang_varBytes (B : Build) (c : SaveLocals) :
    (countHang B c).2.s.afl.varBytes = c.s.afl.varBytes := by
  have kept := newToMap_varBytes B c.s.afl .tmout
  unfold countHang
  dsimp only
  split
  · rfl
  · split
    · exact kept
    · exact kept

theorem keepAsCrash_varBytes (kept : keepAsCrash B input c = .ok d) :
    d.s.afl.varBytes = c.s.afl.varBytes := by
  rcases keepAsCrash_afl kept with same | examined
  · rw [same]
  · rw [examined]
    exact newToMap_varBytes B c.s.afl .crash

theorem keepAsHang_varBytes (kept : keepAsHang B input c = .ok d) :
    d.s.afl.varBytes = c.s.afl.varBytes := by
  obtain ⟨files, created, result⟩ := bind_eq_ok_iff.mp kept
  cases result
  rfl

/-- **A hang is calibrated with the trace of its rerun**, as often as it is kept in the queue. -/
theorem accounted_examineHang (f : Find) (reruns : List HangRerun) (k : ℕ)
    (done : examineHang B f.input reruns c = .ok d) :
    CallsAccount B.platform c.s.afl (hangCalls B f k reruns c) d.s.afl := by
  have counted := countHang_varBytes B c
  induction reruns generalizing k c with
  | nil =>
      simp only [examineHang] at done
      split at done
      · cases done
        exact .of_same counted
      · split at done
        · exact .of_same ((keepAsHang_varBytes done).trans counted)
        · cases done
  | cons rerun reruns ih =>
      have ran : (rerunHang (countHang B c).2 rerun).s.afl.varBytes = c.s.afl.varBytes :=
        (holdsTrace_keptHang B c rerun).varBytes.trans counted
      simp only [examineHang] at done
      simp only [hangCalls]
      split at done
      · rename_i old
        rw [if_pos old]
        cases done
        exact .of_same counted
      · rename_i new
        rw [if_neg new]
        split at done
        · rename_i short
          rw [if_pos short]
          exact .of_same ((keepAsHang_varBytes done).trans counted)
        · rename_i long
          rw [if_neg long]
          split at done
          · rename_i crash
            rw [if_pos crash]
            exact .of_same ((keepAsCrash_varBytes done).trans ran)
          · rename_i noCrash
            rw [if_neg noCrash]
            split at done
            · rename_i answers
              rw [if_pos answers]
              split at done
              · rename_i keeps
                obtain ⟨kept, queued, again⟩ := bind_eq_ok_iff.mp done
                change saveToQueue B _ (keptHang B c rerun) = .ok kept at queued
                have first := accounted_saveToQueue (holdsTrace_keptHang B c rerun)
                  (f.hangBytes k) (f.hangReadings k) queued
                rw [if_pos keeps, queued]
                exact (first.widen counted rfl).trans (ih (k + 1) again (countHang_varBytes B kept))
              · rename_i drops
                rw [if_neg drops]
                cases done
                exact .of_same ran
            · rename_i repeats
              rw [if_neg repeats]
              exact .of_same ((keepAsHang_varBytes done).trans ran)

/-- **The calibration of an execution of the wanted kind.** -/
theorem accounted_wanted (f : Find)
    (acted : saveWanted B f.input
      (updatePathFrequency B { s := f.executed, mem := f.input.mem }) = .ok d) :
    CallsAccount B.platform f.s.afl (wantedCalls B f) d.s.afl := by
  rw [saveWanted_eq] at acted
  obtain ⟨⟨crashed, c⟩, judged, rest⟩ := bind_eq_ok_iff.mp acted
  have holds := holdsTrace_judged judged
  unfold actOnWanted at rest
  unfold wantedCalls
  rw [judged]
  dsimp only at rest ⊢
  split at rest
  · rename_i covered
    rw [if_pos covered]
    split at rest
    · exact .of_same ((keepAsCrash_varBytes rest).trans holds.varBytes)
    · cases rest
      exact .of_same holds.varBytes
  · rename_i novel
    rw [if_neg novel]
    obtain ⟨queued, added, saved⟩ := bind_eq_ok_iff.mp rest
    refine (accounted_saveToQueue holds f.bytes f.readings added).widen rfl ?_
    cases crashed with
    | true => exact keepAsCrash_varBytes saved
    | false =>
        cases saved
        rfl

/-- **The calibrations of `save_if_interesting`.** -/
theorem accounted_find (f : Find) {kept : Bool} {done : SaveState}
    (saved : saveIfInteresting B f.executed f.input = .ok (kept, done)) :
    CallsAccount B.platform f.s.afl (findCalls B f) done.afl := by
  have executed : f.executed.afl.varBytes = f.s.afl.varBytes :=
    fuzzRunTarget_varBytes f.s.afl f.run
  have frequency : (updatePathFrequency B
      { s := f.executed, mem := f.input.mem }).s.afl.varBytes = f.s.afl.varBytes := by
    obtain ⟨_, _, same, -⟩ := updatePathFrequency_afl B { s := f.executed, mem := f.input.mem }
    rw [same]
    exact executed
  unfold saveIfInteresting at saved
  unfold findCalls
  dsimp only at saved
  split at saved
  · rename_i empty
    cases saved
    rw [if_pos empty]
    exact .of_same executed
  · rename_i nonempty
    rw [if_neg nonempty]
    split at saved
    · rename_i ignored
      cases saved
      rw [if_pos ignored]
      exact .of_same frequency
    · rename_i heeded
      rw [if_neg heeded]
      split at saved
      · rename_i wanted
        rw [if_pos wanted]
        obtain ⟨d, acted, result⟩ := bind_eq_ok_iff.mp saved
        cases result
        exact accounted_wanted f acted
      · rename_i unwanted
        rw [if_neg unwanted]
        obtain ⟨d, acted, result⟩ := bind_eq_ok_iff.mp saved
        cases result
        unfold saveFault at acted
        split at acted
        · rename_i hang
          rw [if_pos hang]
          exact (accounted_examineHang f f.input.hangRuns 0 acted).widen frequency rfl
        · rename_i crash
          rw [crash, if_neg (by decide)]
          exact .of_same ((keepAsCrash_varBytes acted).trans frequency)
        · cases acted
        · rename_i noHang _ _
          cases acted
          rw [if_neg noHang]
          exact .of_same frequency

end Saving

/-! ## The calibrations of the dry run, and later ones -/

section Seeds

variable {B : Build} {opts : DryRunOptions} {seeds : ℕ → SeedInput} {seed : SeedInput}
  {readings : ℕ → Readings} {before middle after : AflState} {d e : DryRun} {q : ℕ}

/-- Neither the variable bytes nor the checksums changed. -/
structure KeepsSeeds (before after : AflState) : Prop where
  varBytes : after.varBytes = before.varBytes
  cksum : ∀ p, (after.queueBuf p).execCksum = (before.queueBuf p).execCksum

theorem KeepsSeeds.trans (first : KeepsSeeds before middle) (second : KeepsSeeds middle after) :
    KeepsSeeds before after where
  varBytes := second.varBytes.trans first.varBytes
  cksum p := (second.cksum p).trans (first.cksum p)

theorem keepsSeeds_modifyEntry (afl : AflState) (q : ℕ) (change : QueueEntry → QueueEntry)
    (keeps : (change (afl.queueBuf q)).execCksum = (afl.queueBuf q).execCksum) :
    KeepsSeeds afl (afl.modifyEntry q change) :=
  ⟨rfl, AflState.modifyEntry_keeps afl q change QueueEntry.execCksum keeps⟩

theorem keepsSeeds_retireEntry (afl : AflState) (q : ℕ) : KeepsSeeds afl (retireEntry afl q) := by
  have marked := keepsSeeds_modifyEntry afl q (fun e => { e with wasFuzzed := true }) rfl
  unfold retireEntry
  split
  · exact ⟨rfl, marked.cksum⟩
  · exact ⟨rfl, fun _ => rfl⟩

theorem keepsSeeds_disableEntry (afl : AflState) (q : ℕ) : KeepsSeeds afl (disableEntry afl q) :=
  keepsSeeds_modifyEntry afl q _ rfl

theorem keepsSeeds_crashingSeedIsNew (B : Build) (afl : AflState) :
    KeepsSeeds afl (crashingSeedIsNew B afl).2 := by
  unfold crashingSeedIsNew newToMap
  split
  · exact ⟨rfl, fun _ => rfl⟩
  · unfold hasNewBits
    dsimp only
    split <;> exact ⟨rfl, fun _ => rfl⟩

/-- What is done with a seed after its calibration. -/
theorem SeedOutcome.keepsSeeds {res : FsrvRunResult}
    (outcome : SeedOutcome B opts q res before after) : KeepsSeeds before after := by
  have retired := keepsSeeds_retireEntry before q
  have looked := retired.trans (keepsSeeds_crashingSeedIsNew B (retireEntry before q))
  cases outcome with
  | kept => exact ⟨rfl, fun _ => rfl⟩
  | failed =>
      have failed :=
        keepsSeeds_modifyEntry before q (fun e => { e with calFailed := calChances }) rfl
      exact failed.trans ((keepsSeeds_disableEntry _ q).trans (keepsSeeds_retireEntry _ q))
  | timedOut => exact retired.trans (keepsSeeds_disableEntry _ q)
  | knownCrash => exact looked
  | newCrash => exact looked.trans (keepsSeeds_disableEntry _ q)
  | crash =>
      have deepest : KeepsSeeds (retireEntry before q) { retireEntry before q with
          maxDepth := deepestEnabled (retireEntry before q) } :=
        ⟨rfl, fun _ => rfl⟩
      exact (retired.trans deepest).trans (keepsSeeds_disableEntry _ q)

/-- A call for an entry without a checksum compares its own runs only. -/
theorem classified_of_unsummed {P : Platform} {call : CalibrationCall}
    (unsummed : (call.afl.queueBuf call.q).execCksum = 0) : call.Classified P :=
  fun _ known => absurd unsummed known

theorem spareSeed_keeps (opts : DryRunOptions) (q : ℕ) (afl : AflState) :
    KeepsSeeds afl (spareSeed opts q afl) := by
  unfold spareSeed
  split
  · exact keepsSeeds_modifyEntry afl q _ rfl
  · exact ⟨rfl, fun _ => rfl⟩

/-- **One seed of the dry run.** -/
theorem accounted_dryRunEntry (r : Readings)
    (fresh : (d.s.afl.queueBuf q).execCksum = 0) (done : dryRunEntry B opts seed d q = .ok e) :
    CallsAccount B.platform d.s.afl (seedCalls opts seed r q d.s.afl) e.s.afl ∧
      SameCksums q d.s.afl e.s.afl := by
  have spared := spareSeed_keeps opts q d.s.afl
  have call := accounted_call ⟨spareSeed opts q d.s.afl, q, seed.calibration, r, none⟩
    (classified_of_unsummed (P := B.platform) ((spared.cksum q).trans fresh))
  have calibrated : (calibrateSeed B opts seed q d.s.afl).2.varBytes =
        (calibrateCase B.platform (spareSeed opts q d.s.afl) q seed.calibration).2.varBytes ∧
      SameCksums q d.s.afl (calibrateSeed B opts seed q d.s.afl).2 := by
    have others : SameCksums q d.s.afl
        (calibrateCase B.platform (spareSeed opts q d.s.afl) q seed.calibration).2 :=
      fun p other => (sameCksums_calibrateCase _ _ q _ p other).trans (spared.cksum p)
    unfold calibrateSeed
    dsimp only
    split
    · exact ⟨rfl, others.trans (sameCksums_modifyEntry _ q _)⟩
    · exact ⟨rfl, others⟩
  have seeded := call.widen spared.varBytes calibrated.1
  simp only [dryRunEntry] at done
  unfold seedCalls
  split at done
  · rename_i skipped
    rw [if_pos skipped]
    split at done
    · cases done
      exact ⟨.of_same rfl, fun _ _ => rfl⟩
    · cases done
  · rename_i runs
    rw [if_neg runs]
    split at done
    · cases done
      exact ⟨seeded, calibrated.2⟩
    · have kept := (dryRunResult_cases done).keepsSeeds
      exact ⟨seeded.widen rfl kept.varBytes,
        calibrated.2.trans fun p _ => kept.cksum p⟩

/-- **The loop over the seeds**: the seeds that are still to come have no checksum. -/
theorem accounted_dryRunLoop (readings : ℕ → Readings) (order : List ℕ) (distinct : order.Nodup)
    (fresh : ∀ q ∈ order, (d.s.afl.queueBuf q).execCksum = 0)
    (done : dryRunLoop B opts seeds d order = .ok e) :
    CallsAccount B.platform d.s.afl (dryRunCalls B opts seeds readings d order) e.s.afl := by
  induction order generalizing d with
  | nil =>
      cases done
      exact .of_same rfl
  | cons q rest ih =>
      obtain ⟨next, entry, loop⟩ := bind_eq_ok_iff.mp done
      obtain ⟨notMember, distinct⟩ := List.nodup_cons.mp distinct
      obtain ⟨first, others⟩ :=
        accounted_dryRunEntry (readings q) (fresh q List.mem_cons_self) entry
      unfold dryRunCalls
      rw [entry]
      refine first.trans ?_
      dsimp only at loop ⊢
      split at loop
      · rename_i stopped
        rw [if_pos stopped]
        cases loop
        exact .of_same rfl
      · rename_i running
        rw [if_neg running]
        refine ih distinct (fun p member => ?_) loop
        rw [others p fun same => notMember (same ▸ member)]
        exact fresh p (List.mem_cons_of_mem q member)

/-- Dropping the seeds whose trace another seed has. -/
theorem dropDuplicates_varBytes (afl : AflState) (queue : ℕ) :
    (dropDuplicates afl queue).varBytes = afl.varBytes := by
  have dropped := (dropDuplicates_rule (P := fun t => t.queuedItems = afl.queuedItems ∧
    t.varBytes = afl.varBytes) (fun same => same.1) (fun {t q} same _ _ => ?_) afl ⟨rfl, rfl⟩).2
  · unfold dropDuplicates
    dsimp only
    split
    · exact dropped
    · exact dropped
  · refine ⟨?_, (keepsSeeds_disableEntry _ q).varBytes.trans
      ((keepsSeeds_retireEntry t q).varBytes.trans same.2)⟩
    refine Eq.trans ?_ same.1
    unfold disableEntry retireEntry
    split <;> rfl

/-- **The calibrations of the dry run.** -/
theorem accounted_dryRun
    (fresh : ∀ q < d.s.afl.queuedItems, (d.s.afl.queueBuf q).execCksum = 0)
    (done : performDryRun B opts seeds d = .ok e) :
    CallsAccount B.platform d.s.afl
      (dryRunCalls B opts seeds readings d (dryRunOrder opts d.s.afl.queuedItems)) e.s.afl := by
  unfold performDryRun at done
  split at done
  · cases done
  · obtain ⟨looped, loop, rest⟩ := bind_eq_ok_iff.mp done
    have accounted := accounted_dryRunLoop readings
      (dryRunOrder opts d.s.afl.queuedItems) ?_ (fun q member => ?_) loop
    · split at rest
      · cases rest
        exact accounted
      · split at rest
        · cases rest
        · cases rest
          exact accounted.widen rfl (dropDuplicates_varBytes _ _)
    · unfold dryRunOrder
      split
      · exact List.nodup_reverse.mpr List.nodup_range
      · exact List.nodup_range
    · refine fresh q ?_
      unfold dryRunOrder at member
      split at member
      · exact List.mem_range.mp (List.mem_reverse.mp member)
      · exact List.mem_range.mp member

/-- **The calibration of an entry whose calibration failed** starts without a checksum. -/
theorem accounted_again {afl done : AflState} {input : FuzzOneInput} {leave : Bool} (r : Readings)
    (calibrated : calibrateAgain B afl q input = .ok (leave, done)) :
    CallsAccount B.platform afl (againCalls afl q input r) done := by
  have unsummed :
      ((afl.modifyEntry q fun e => { e with execCksum := 0 }).queueBuf q).execCksum = 0 := by
    rw [AflState.modifyEntry_queueBuf_self]
  have call := accounted_call ⟨afl.modifyEntry q fun e => { e with execCksum := 0 }, q,
    input.recalibration, r, none⟩ (classified_of_unsummed (P := B.platform) unsummed)
  unfold calibrateAgain at calibrated
  unfold againCalls
  dsimp only at calibrated
  split at calibrated
  · rename_i passed
    rw [if_pos passed]
    cases calibrated
    exact .of_same rfl
  · rename_i failed
    rw [if_neg failed]
    split at calibrated
    · cases calibrated
    · cases calibrated
      unfold retryCalibration
      split
      · exact call.widen rfl rfl
      · exact .of_same rfl

end Seeds

/-! ## The whole campaign -/

section Campaign

variable {B : Build} {start afl after : AflState} {calls : List CalibrationCall}

/-- **Every step accounts for the bytes that it changes.** -/
theorem CampaignStep.accounted (step : CampaignStep B afl calls after) :
    CallsAccount B.platform afl calls after := by
  cases step with
  | find f done => exact accounted_find f done
  | dryRun opts seeds readings fresh done => exact accounted_dryRun fresh done
  | again q input readings done => exact accounted_again readings done
  | other same => exact .of_same same

theorem accounted_of_reachable (run : Reachable (campaign B start) (afl, calls)) :
    CallsAccount B.platform start calls afl := by
  refine run.invariant (P := fun c => CallsAccount B.platform start c.2 c.1) ?_
    fun before next _ accounted step => ?_
  · rintro _ rfl
    exact .of_same rfl
  · obtain ⟨calls, step, log⟩ := step
    rw [log]
    exact accounted.trans step.accounted

/-- **Variable edges vary.** In a run where every execution around a calibration reads the input of
the entry, every calibration marks only bytes in which two of its executions differ, nothing else
changes `var_bytes`, and with a deterministic target nothing does. -/
theorem variable_edges_vary (run : Reachable (campaign B start) (afl, calls))
    (own : ∀ call ∈ calls, call.ReadsOwnInput) :
    (∀ call ∈ calls, call.MarksVarying B.platform) ∧
      (∀ i, afl.varBytes i ≠ start.varBytes i →
        ∃ call ∈ calls, (call.after B.platform).varBytes i ≠ call.afl.varBytes i) ∧
      ∀ target, (∀ call ∈ calls, call.Follows B.platform target) →
        afl.varBytes = start.varBytes := by
  have accounted := accounted_of_reachable run
  have marks (call : CalibrationCall) (member : call ∈ calls) : call.MarksVarying B.platform :=
    (accounted.classified call member).marksVarying (own call member)
  refine ⟨marks, accounted.changed, fun target follows => ?_⟩
  funext i
  by_contra changed
  obtain ⟨call, member, moved⟩ := accounted.changed i changed
  exact moved (congrFun ((marks call member).unchanged (follows call member)) i)

end Campaign

/-! ## Custom mutators -/

/-- The hooks of the custom mutators that change a case: what `post_process` makes of the data for
the target, and what `queue_new_entry` makes of the file. -/
structure CustomMutators where
  postProcess : List Byte → List Byte := id
  queueNewEntry : List Byte → Option (List Byte) := fun _ => none

/-- What the target reads for an entry that was made of the data. `calibrate_case` has the data
from before `queue_new_entry`, and the length from after it. -/
def CustomMutators.readings (m : CustomMutators) (mem : List Byte) : Readings :=
  let file := (m.queueNewEntry mem).getD mem
  { own := m.postProcess file
    runs := fun _ => m.postProcess (mem.take file.length) }

/-- The executions read the input of the entry if the file was left alone, and the data that led to
the call is not changed by post-processing it again. -/
theorem readsOwnInput_of_untouched {call : CalibrationCall} (m : CustomMutators) {mem : List Byte}
    (readings : call.readings = m.readings mem) (untouched : m.queueNewEntry mem = none)
    (settled : ∀ e, call.led = some e → e.bytes = m.postProcess mem) : call.ReadsOwnInput := by
  have file : (m.queueNewEntry mem).getD mem = mem := by rw [untouched, Option.getD_none]
  refine ⟨fun e led => ?_, fun k => ?_⟩
  · rw [readings, settled e led, CustomMutators.readings, file]
  · rw [readings]
    simp only [CustomMutators.readings]
    rw [file, List.take_length]

/-- The first execution hits byte 2, and the runs of the calibration hit byte 3. -/
def shiftedHit (m : CustomMutators) : Find where
  s := { afl := { mapSize := 64, virginBits := fun _ => 255 } }
  run := { trace := fun a => if a = 2 then 1 else 0 }
  bytes := m.postProcess [65]
  input :=
    { mem := m.postProcess [65]
      fault := .ok
      calibration := { runs := fun _ => { trace := fun a => if a = 3 then 1 else 0 } } }
  readings := m.readings (m.postProcess [65])
  hangBytes _ := []
  hangReadings _ := ⟨[], fun _ => []⟩

/-- A find that was not a hang is calibrated with its own runs. -/
theorem mem_findCalls {B : Build} {f : Find} {call : CalibrationCall}
    (noHang : f.input.fault ≠ .tmout) (member : call ∈ findCalls B f) :
    call.calibration = f.input.calibration ∧ call.readings = f.readings ∧
      call.led = some ⟨f.bytes, f.run.trace⟩ := by
  unfold findCalls at member
  split at member
  · cases member
  · split at member
    · cases member
    · split at member
      · unfold wantedCalls queueCalls at member
        split at member
        · cases member
        · split at member
          · cases member
          · split at member
            · cases member
            · rw [List.mem_singleton.mp member]
              exact ⟨rfl, rfl, rfl⟩
      · cases member

/-- A find that is saved, as a campaign. -/
theorem reachable_find {B : Build} (f : Find) {i : ℕ} {value : Byte}
    (saved : (saveIfInteresting B f.executed f.input).toOption.map
      (fun result => result.2.afl.varBytes i) = some value) :
    ∃ afl, Reachable (campaign B f.s.afl) (afl, findCalls B f) ∧ afl.varBytes i = value := by
  cases done : saveIfInteresting B f.executed f.input with
  | error fault =>
      rw [done] at saved
      cases saved
  | ok result =>
      rw [done] at saved
      exact ⟨result.2.afl, .step (.init rfl)
        ⟨findCalls B f, .find f done, (List.nil_append _).symm⟩, Option.some.inj saved⟩

/-- Without custom mutators a target that hits another byte every time is marked as variable, and
its executions differ. -/
theorem variable_edges_vary_unsteady :
    ∃ afl calls, Reachable (campaign hitHash (shiftedHit {}).s.afl) (afl, calls) ∧
      afl.varBytes 3 = 1 ∧ ∀ call ∈ calls, call.MarksVarying hitHash.platform := by
  have saved : (saveIfInteresting hitHash (shiftedHit {}).executed
      (shiftedHit {}).input).toOption.map (fun r => r.2.afl.varBytes 3) = some 1 := by
    decide +kernel
  obtain ⟨afl, run, marked⟩ := reachable_find (shiftedHit {}) saved
  refine ⟨afl, _, run, marked, (variable_edges_vary run ?_).1⟩
  intro call member
  obtain ⟨-, readings, led⟩ := mem_findCalls (by decide) member
  refine readsOwnInput_of_untouched {} readings rfl fun e same => ?_
  rw [led] at same
  cases same
  rfl

/-- A post-processor that puts a byte before the data. -/
def prefixing : CustomMutators where
  postProcess data := 0 :: data

/-- A deterministic target, which hits the byte with the number of the bytes that it reads. -/
def lengthTarget (data : List Byte) : Buffer := fun a => if a = data.length then 1 else 0

/-- A deterministic target whose case is post-processed once more in the calibration has bytes
marked as variable. -/
theorem steady_edge_marked :
    ∃ afl calls, Reachable (campaign hitHash (shiftedHit prefixing).s.afl) (afl, calls) ∧
      (∀ call ∈ calls, call.Follows hitHash.platform lengthTarget) ∧
      (shiftedHit prefixing).s.afl.varBytes 3 = 0 ∧ afl.varBytes 3 = 1 ∧
      ∃ call ∈ calls, ¬ call.MarksVarying hitHash.platform := by
  have saved : (saveIfInteresting hitHash (shiftedHit prefixing).executed
      (shiftedHit prefixing).input).toOption.map (fun r => r.2.afl.varBytes 3) = some 1 := by
    decide +kernel
  obtain ⟨afl, run, set⟩ := reachable_find (shiftedHit prefixing) saved
  have follows (call : CalibrationCall) (member : call ∈ findCalls hitHash (shiftedHit prefixing)) :
      call.Follows hitHash.platform lengthTarget := by
    obtain ⟨calibration, readings, led⟩ := mem_findCalls (by decide) member
    rintro e (first | ⟨k, -, same⟩)
    · rw [led] at first
      cases first
      rfl
    · rw [same, calibration, readings]
      rfl
  have unset : (shiftedHit prefixing).s.afl.varBytes 3 = 0 := rfl
  have changed : afl.varBytes 3 ≠ (shiftedHit prefixing).s.afl.varBytes 3 := by
    rw [set, unset]
    decide
  have accounted := accounted_of_reachable run
  obtain ⟨call, member, moved⟩ := accounted.changed 3 changed
  refine ⟨afl, _, run, follows, unset, set, ?_⟩
  exact ⟨call, member, fun marks =>
    moved (congrFun (marks.unchanged (follows call member)) 3)⟩

end GreenFuzz.AflFuzz
