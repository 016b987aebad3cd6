import GreenFuzz.AflFuzz.CrashAccounting

/-!
# Feeding the sanitizers one input per trace

With the abstraction `unique_trace` the sanitizer binaries should run an input when the 32-bit hash
of its classified trace was not seen before. The set of the hashes is the bitmap `n_fuzz_dup`, over
all the calls of `save_if_interesting` for executions of the wanted kind.

The hash is what is set in the bitmap, but what is tested is the low word of the path checksum.
The two are the same number when the checksum has been computed, which only the schedules that
count path frequencies do; else bit 0 is tested. `fedOnce_iff` says when a run of calls feeds one
input per hash.
-/

set_option autoImplicit false

namespace GreenFuzz.AflFuzz

open Library

variable {B : Build} {input : SaveInput} {c d : SaveLocals} {s t : SaveState}

/-! ## The two keys -/

/-- `cksum_unique`: the 32-bit hash of the classified trace. -/
def uniqueHash (B : Build) (s : SaveState) : ℕ :=
  B.hash32 s.afl.mapSize (classifyCounts B.variant.wordSize s.afl.mapSize s.afl.traceBits)

/-- `cksum` where the sanitizers are considered: the path checksum, if it has been computed. -/
def pathCksum (B : Build) (s : SaveState) : ℕ :=
  if s.afl.countsPaths then
    B.hash64 s.afl.mapSize (classifyCounts B.variant.wordSize s.afl.mapSize s.afl.traceBits)
  else 0

/-- `hash32` and `hash64` are one function of 64 bits, and `hash32` keeps its low word. -/
def OneHash (B : Build) : Prop := ∀ mapSize trace, B.hash32 mapSize trace =
  u32 (B.hash64 mapSize trace)

theorem u32_pathCksum (oneHash : OneHash B) (s : SaveState) :
    u32 (pathCksum B s) = if s.afl.countsPaths then uniqueHash B s else 0 := by
  unfold pathCksum uniqueHash
  split
  · rw [oneHash]
  · rfl

/-! ## One call -/

/-- There are sanitizer binaries, and unique traces are fed to them. -/
structure SanSet (s : SaveState) : Prop where
  abstraction : s.sanAbstraction = .uniqueTrace
  binaries : s.sanBinaryLength ≠ 0

/-- The same sanitizer binaries, fed by the same abstraction. -/
structure SameSan (s t : SaveState) : Prop where
  abstraction : t.sanAbstraction = s.sanAbstraction
  binaries : t.sanBinaryLength = s.sanBinaryLength

theorem SameSan.set (same : SameSan s t) (set : SanSet s) : SanSet t :=
  ⟨same.abstraction.trans set.abstraction,
    fun none => set.binaries (same.binaries.symm.trans none)⟩

theorem SameSan.trans {u : SaveState} (first : SameSan s t) (second : SameSan t u) : SameSan s u :=
  ⟨second.abstraction.trans first.abstraction, second.binaries.trans first.binaries⟩

/-- `feed_san` is set, so that the loop over the sanitizer binaries runs. -/
def Fed (B : Build) (s : SaveState) (input : SaveInput) : Prop :=
  ∃ c, feedSan B (updatePathFrequency B { s := s, mem := input.mem }) = .ok (true, c)

theorem updatePathFrequency_cksum (B : Build) (s : SaveState) (mem : List Byte) :
    (updatePathFrequency B { s := s, mem := mem }).cksum = pathCksum B s := by
  unfold updatePathFrequency pathCksum
  split
  · rfl
  · rfl

/-- Once classified, the trace is that of the run. -/
theorem classified_frequency (B : Build) (s : SaveState) (mem : List Byte) :
    (classifyIfNecessary B (updatePathFrequency B { s := s, mem := mem })).s.afl.mapSize =
        s.afl.mapSize ∧
      (classifyIfNecessary B (updatePathFrequency B { s := s, mem := mem })).s.afl.traceBits =
        classifyCounts B.variant.wordSize s.afl.mapSize s.afl.traceBits := by
  unfold updatePathFrequency
  split
  · exact ⟨rfl, rfl⟩
  · exact ⟨rfl, rfl⟩

theorem classifyIfNecessary_cksum (B : Build) (c : SaveLocals) :
    (classifyIfNecessary B c).cksum = c.cksum := by
  unfold classifyIfNecessary
  split
  · rfl
  · rfl

theorem classifyIfNecessary_nFuzzDup (B : Build) (c : SaveLocals) :
    (classifyIfNecessary B c).s.nFuzzDup = c.s.nFuzzDup := by
  rw [classifyIfNecessary_s]

/-- The block for unique traces tests one key and sets the other. -/
theorem feedSan_unique (set : SanSet s) (mem : List Byte) :
    ∃ c, feedSan B (updatePathFrequency B { s := s, mem := mem }) =
        .ok (!bitSet s.nFuzzDup (u32 (pathCksum B s)), c) ∧
      c.s.nFuzzDup = if bitSet s.nFuzzDup (u32 (pathCksum B s)) then s.nFuzzDup
        else setBit s.nFuzzDup (uniqueHash B s) := by
  have counted := updatePathFrequency_s B { s := s, mem := mem }
  have binaries : (updatePathFrequency B { s := s, mem := mem }).s.sanBinaryLength ≠ 0 := by
    rw [counted]
    exact set.binaries
  have abstraction : (updatePathFrequency B { s := s, mem := mem }).s.sanAbstraction =
      .uniqueTrace := by
    rw [counted]
    exact set.abstraction
  have seen : (classifyIfNecessary B (updatePathFrequency B { s := s, mem := mem })).s.nFuzzDup =
      s.nFuzzDup := by
    rw [classifyIfNecessary_nFuzzDup, counted]
  have tested : (classifyIfNecessary B (updatePathFrequency B { s := s, mem := mem })).cksum =
      pathCksum B s :=
    (classifyIfNecessary_cksum B _).trans (updatePathFrequency_cksum B s mem)
  obtain ⟨size, trace⟩ := classified_frequency B s mem
  unfold feedSan
  rw [if_neg binaries, abstraction]
  dsimp only
  rw [seen, tested, size, trace]
  cases bitSet s.nFuzzDup (u32 (pathCksum B s)) with
  | true => exact ⟨_, rfl, seen⟩
  | false => exact ⟨_, rfl, rfl⟩

/-- **What feeds the sanitizers**: the tested bit is clear. -/
theorem fed_iff (set : SanSet s) :
    Fed B s input ↔ bitSet s.nFuzzDup (u32 (pathCksum B s)) = false := by
  obtain ⟨c, result, -⟩ := feedSan_unique (B := B) set input.mem
  unfold Fed
  rw [result]
  constructor
  · rintro ⟨_, same⟩
    have fed := congrArg Prod.fst (Except.ok.inj same)
    simpa using fed
  · intro clear
    exact ⟨c, by rw [clear]; rfl⟩

/-! ## What a call leaves behind -/

/-- A part of a call that does not touch the set of the hashes. -/
structure KeepsSeen (s t : SaveState) : Prop extends SameSan s t where
  seen : t.nFuzzDup = s.nFuzzDup

theorem KeepsSeen.refl (s : SaveState) : KeepsSeen s s := ⟨⟨rfl, rfl⟩, rfl⟩

theorem KeepsSeen.trans {u : SaveState} (first : KeepsSeen s t) (second : KeepsSeen t u) :
    KeepsSeen s u :=
  ⟨first.toSameSan.trans second.toSameSan, second.seen.trans first.seen⟩

theorem keptBySteps_keepsSeen (B : Build) : KeptBySteps B fun c d => KeepsSeen c.s d.s where
  refl c := KeepsSeen.refl c.s
  trans := KeepsSeen.trans
  classify c := by
    rw [classifyIfNecessary_s]
    exact ⟨⟨rfl, rfl⟩, rfl⟩
  sum c _ _ := KeepsSeen.refl c.s
  look _ := ⟨⟨rfl, rfl⟩, rfl⟩
  note c _ := KeepsSeen.refl c.s
  count _ _ := ⟨⟨rfl, rfl⟩, rfl⟩

theorem keepsSeen_saveToQueue (queued : saveToQueue B input c = .ok d) : KeepsSeen c.s d.s := by
  rw [saveToQueue_s queued]
  exact ⟨⟨rfl, rfl⟩, rfl⟩

theorem keepsSeen_keepAsCrash (kept : keepAsCrash B input c = .ok d) : KeepsSeen c.s d.s := by
  rw [keepAsCrash_s kept]
  exact ⟨⟨rfl, rfl⟩, rfl⟩

theorem keepsSeen_keepAsHang (kept : keepAsHang B input c = .ok d) : KeepsSeen c.s d.s := by
  obtain ⟨files, created, result⟩ := bind_eq_ok_iff.mp kept
  cases result
  exact ⟨⟨rfl, rfl⟩, rfl⟩

theorem keepsSeen_countHang (B : Build) (c : SaveLocals) : KeepsSeen c.s (countHang B c).2.s := by
  unfold countHang
  dsimp only
  split
  · exact ⟨⟨rfl, rfl⟩, rfl⟩
  · split
    · exact ⟨⟨rfl, rfl⟩, rfl⟩
    · exact ⟨⟨rfl, rfl⟩, rfl⟩

theorem keepsSeen_examineHang (reruns : List HangRerun)
    (done : examineHang B input reruns c = .ok d) : KeepsSeen c.s d.s := by
  refine examineHang_rule (R := fun c d => KeepsSeen c.s d.s) KeepsSeen.trans ?_ ?_ ?_ ?_ ?_
    reruns done
  · exact fun c => keepsSeen_countHang B c
  · exact fun c rerun => ⟨⟨rfl, rfl⟩, rfl⟩
  · exact fun kept => keepsSeen_keepAsHang kept
  · exact fun kept => keepsSeen_keepAsCrash kept
  · intro _ _ _ queued
    have saved := keepsSeen_saveToQueue queued
    exact ⟨⟨saved.abstraction, saved.binaries⟩, saved.seen⟩

theorem keepsSeen_saveFault {fault : FsrvRunResult} (done : saveFault B input fault c = .ok d) :
    KeepsSeen c.s d.s := by
  unfold saveFault at done
  split at done
  · exact keepsSeen_examineHang input.hangRuns done
  · exact keepsSeen_keepAsCrash done
  · cases done
  · cases done
    exact KeepsSeen.refl _

theorem runSanitizers_seen {crashed : Bool} {feed : Bool} (fed : feedSan B c = .ok (feed, d))
    {ran : SaveLocals} (done : runSanitizers B input c = .ok (crashed, ran)) :
    KeepsSeen d.s ran.s := by
  obtain ⟨⟨feed', fed'⟩, result, rest⟩ := bind_eq_ok_iff.mp done
  rw [fed] at result
  cases result
  dsimp only at rest
  split at rest
  · have last : (sanLoop input d (List.range d.s.sanBinaryLength)).2 = ran :=
      congrArg Prod.snd (Except.ok.inj rest)
    rw [← last, sanLoop_s]
    exact ⟨⟨rfl, rfl⟩, rfl⟩
  · cases rest
    exact KeepsSeen.refl _

/-- After a wanted execution the set has the hash of its trace, if the sanitizers were fed. -/
theorem seen_of_wanted {kept : Bool} (set : SanSet s) (nonempty : input.mem ≠ [])
    (wanted : input.fault = s.afl.crashMode) (noHang : s.afl.crashMode ≠ .tmout)
    (done : saveIfInteresting B s input = .ok (kept, t)) :
    SameSan s t ∧ t.nFuzzDup = if bitSet s.nFuzzDup (u32 (pathCksum B s)) then s.nFuzzDup
      else setBit s.nFuzzDup (uniqueHash B s) := by
  obtain ⟨fed, feeds, marked⟩ := feedSan_unique (B := B) set input.mem
  have seen := keptBySteps_keepsSeen B
  have before := (seen.frequency { s := s, mem := input.mem }).toSameSan
  have feeding : SameSan (updatePathFrequency B { s := s, mem := input.mem }).s fed.s := by
    rw [feedSan_s feeds]
    exact ⟨rfl, rfl⟩
  unfold saveIfInteresting at done
  rw [if_neg nonempty, if_neg (fun hang => noHang (wanted.symm.trans hang.1))] at done
  dsimp only at done
  rw [if_pos wanted] at done
  obtain ⟨saved, acted, result⟩ := bind_eq_ok_iff.mp done
  cases result
  obtain ⟨⟨crashed, ran⟩, sanitized, rest⟩ := bind_eq_ok_iff.mp acted
  obtain ⟨counted, found, rest⟩ := bind_eq_ok_iff.mp rest
  have kept := (runSanitizers_seen feeds sanitized).trans (seen.newBits found)
  have after : KeepsSeen fed.s saved.s := by
    dsimp only at rest
    split at rest
    · split at rest
      · exact kept.trans (keepsSeen_saveFault rest)
      · cases rest
        exact ⟨⟨kept.abstraction, kept.binaries⟩, kept.seen⟩
    · obtain ⟨queued, added, rest⟩ := bind_eq_ok_iff.mp rest
      exact kept.trans ((keepsSeen_saveToQueue added).trans (keepsSeen_saveFault rest))
  exact ⟨(before.trans feeding).trans after.toSameSan, after.seen.trans marked⟩

/-! ## Runs -/

/-- A call for a wanted execution. -/
structure SanCall where
  before : SaveState
  input : SaveInput

/-- The wanted executions of a run, and the state after it. Between two of them anything can happen
to the fuzzer that leaves the sanitizers and their set alone, and so can other executions be
saved. -/
inductive SanRun (B : Build) : List SanCall → SaveState → Prop where
  | start {s : SaveState} (set : SanSet s) (unseen : ∀ key, bitSet s.nFuzzDup key = false) :
      SanRun B [] s
  | work {calls : List SanCall} {s t : SaveState} (run : SanRun B calls s)
      (keeps : KeepsSeen s t) : SanRun B calls t
  | call {calls : List SanCall} {s t : SaveState} {input : SaveInput} {kept : Bool}
      (run : SanRun B calls s) (nonempty : input.mem ≠ []) (wanted : input.fault = s.afl.crashMode)
      (noHang : s.afl.crashMode ≠ .tmout)
      (saved : saveIfInteresting B s input = .ok (kept, t)) : SanRun B (calls ++ [⟨s, input⟩]) t

/-- Each call feeds the sanitizers if and only if no earlier one had the hash of its trace. -/
def FedOnce (B : Build) (calls : List SanCall) : Prop :=
  ∀ earlier call later, calls = earlier ++ call :: later →
    (Fed B call.before call.input ↔
      uniqueHash B call.before ∉ earlier.map fun other => uniqueHash B other.before)

/-- The path checksum was computed for the call, or bit 0 is set as the bit of its hash is. -/
def KeysAgree (B : Build) (s : SaveState) : Prop :=
  s.afl.countsPaths = true ∨ bitSet s.nFuzzDup 0 = bitSet s.nFuzzDup (uniqueHash B s)

/-- One more call keeps the rule if it feeds as it should. -/
theorem fedOnce_concat (B : Build) (calls : List SanCall) (last : SanCall) :
    FedOnce B (calls ++ [last]) ↔ FedOnce B calls ∧
      (Fed B last.before last.input ↔
        uniqueHash B last.before ∉ calls.map fun other => uniqueHash B other.before) := by
  constructor
  · intro once
    refine ⟨?_, once calls last [] rfl⟩
    rintro earlier call later rfl
    exact once earlier call (later ++ [last]) (by simp)
  · rintro ⟨once, fed⟩ earlier call later split_eq
    rcases List.eq_nil_or_concat later with rfl | ⟨rest, final, rfl⟩
    · obtain ⟨rfl, same⟩ := List.append_inj' split_eq rfl
      cases same
      exact fed
    · rw [List.concat_eq_append, ← List.cons_append, ← List.append_assoc] at split_eq
      obtain ⟨rfl, -⟩ := List.append_inj' split_eq rfl
      exact once earlier call rest rfl

/-- Feeding the sanitizers twice with one hash breaks the rule. -/
theorem not_fedOnce_of_same {input' : SaveInput} (fed : Fed B t input')
    (same : uniqueHash B t = uniqueHash B s) : ¬ FedOnce B [⟨s, input⟩, ⟨t, input'⟩] := by
  intro once
  have new := (once [⟨s, input⟩] ⟨t, input'⟩ [] rfl).mp fed
  rw [List.map_singleton, List.mem_singleton] at new
  exact new same

theorem sanSet_of_run {calls : List SanCall} (run : SanRun B calls s) : SanSet s := by
  induction run with
  | start set _ => exact set
  | work _ keeps ih => exact keeps.toSameSan.set ih
  | call _ nonempty wanted noHang saved ih =>
      exact (seen_of_wanted ih nonempty wanted noHang saved).1.set ih

/-- As long as the rule is kept, the set has the hashes of the calls so far. -/
theorem seen_of_run {calls : List SanCall} (run : SanRun B calls s) (once : FedOnce B calls)
    (key : ℕ) : bitSet s.nFuzzDup key = true ↔
      key ∈ calls.map fun call => uniqueHash B call.before := by
  induction run generalizing key with
  | start _ unseen => simp [unseen]
  | work _ keeps ih =>
      rw [keeps.seen]
      exact ih once key
  | @call calls s t input kept run nonempty wanted noHang saved ih =>
      obtain ⟨before, fed⟩ := (fedOnce_concat B calls ⟨s, input⟩).mp once
      have set := sanSet_of_run run
      rw [(seen_of_wanted set nonempty wanted noHang saved).2, List.map_append, List.mem_append]
      rw [fed_iff set, ← ih before] at fed
      cases tested : bitSet s.nFuzzDup (u32 (pathCksum B s)) with
      | true =>
          have known : bitSet s.nFuzzDup (uniqueHash B s) = true := by
            rw [tested] at fed
            simpa using fed
          rw [if_pos rfl, ih before]
          refine ⟨Or.inl, fun listed => listed.elim id fun here => ?_⟩
          rw [List.map_singleton, List.mem_singleton] at here
          rw [here]
          exact (ih before _).mp known
      | false =>
          rw [if_neg Bool.false_ne_true, bitSet_setBit, Bool.or_eq_true, decide_eq_true_eq,
            ih before, List.map_singleton, List.mem_singleton]
          exact or_comm

/-- **One input per trace, exactly when the two keys agree.** In a run of calls with the abstraction
`unique_trace`, the sanitizers are fed the inputs whose trace has a new 32-bit hash, and no others,
if and only if for each call the path checksum has been computed or bit 0 of the set is set as the
bit of the hash is. -/
theorem fedOnce_iff {calls : List SanCall} (oneHash : OneHash B) (run : SanRun B calls s) :
    FedOnce B calls ↔ ∀ call ∈ calls, KeysAgree B call.before := by
  induction run with
  | start _ _ =>
      refine iff_of_true ?_ (by simp)
      rintro earlier call later empty
      simp at empty
  | work _ _ ih => exact ih
  | @call calls s t input kept run nonempty wanted noHang saved ih =>
      have set := sanSet_of_run run
      rw [fedOnce_concat, List.forall_mem_append, List.forall_mem_singleton, ih]
      refine and_congr_right fun agree => ?_
      have seen := seen_of_run run (ih.mpr agree) (uniqueHash B s)
      show (Fed B s input ↔ _) ↔ KeysAgree B s
      rw [fed_iff set, ← seen, u32_pathCksum oneHash]
      unfold KeysAgree
      cases s.afl.countsPaths with
      | true => simp
      | false =>
          simp only [Bool.false_eq_true, if_false, false_or]
          cases bitSet s.nFuzzDup 0 <;> cases bitSet s.nFuzzDup (uniqueHash B s) <;> decide

/-- A wanted execution that brings no new coverage. -/
def wantedCall : SaveInput := { mem := [65], fault := .ok }

/-- A fuzzer with one sanitizer binary, where a run hit byte 3 once. -/
def oneSanitizer (schedule : Schedule) : SaveState where
  afl := { (oneHit .ok 0).afl with schedule := schedule }
  sanBinaryLength := 1
  sanAbstraction := .uniqueTrace

/-- A build whose hash is one plus byte 3 of the trace. -/
def hitHash : Build where
  variant := .plain64
  hash32 := fun _ trace => u32 (1 + (trace 3).toNat)
  hash64 := fun _ trace => 1 + (trace 3).toNat
  sha1Hex := fun _ => ""
  libm := Libm.identity

/-- The state after a call, with the trace of a next run that is the same. -/
def runAgain (schedule : Schedule) : SaveState :=
  match saveIfInteresting hitHash (oneSanitizer schedule) wantedCall with
  | .ok (_, t) => { t with afl := { t.afl with traceBits := (oneHit .ok 0).afl.traceBits } }
  | .error _ => oneSanitizer schedule

/-- Two calls for the same trace. -/
def sameTraceTwice (schedule : Schedule) : List SanCall :=
  [⟨oneSanitizer schedule, wantedCall⟩, ⟨runAgain schedule, wantedCall⟩]

theorem sameTraceTwice_run (schedule : Schedule)
    (first : (saveIfInteresting hitHash (oneSanitizer schedule) wantedCall).isOk = true)
    (second : (saveIfInteresting hitHash (runAgain schedule) wantedCall).isOk = true)
    (mode : (runAgain schedule).afl.crashMode = .ok) :
    ∃ s, SanRun hitHash (sameTraceTwice schedule) s := by
  have start : SanRun hitHash [] (oneSanitizer schedule) :=
    SanRun.start ⟨rfl, one_ne_zero⟩ fun key => bitSet_zero key
  cases saved : saveIfInteresting hitHash (oneSanitizer schedule) wantedCall with
  | error fault =>
      rw [saved] at first
      cases first
  | ok result =>
      obtain ⟨kept, t⟩ := result
      have noHang : (oneSanitizer schedule).afl.crashMode ≠ .tmout := by
        show FsrvRunResult.ok ≠ .tmout
        decide
      have once := SanRun.call start (by decide) rfl noHang saved
      have again : SanRun hitHash [⟨oneSanitizer schedule, wantedCall⟩] (runAgain schedule) := by
        unfold runAgain
        rw [saved]
        exact SanRun.work once ⟨⟨rfl, rfl⟩, rfl⟩
      cases savedAgain : saveIfInteresting hitHash (runAgain schedule) wantedCall with
      | error fault =>
          rw [savedAgain] at second
          cases second
      | ok result =>
          obtain ⟨kept, t⟩ := result
          refine ⟨t, SanRun.call again (by decide) mode.symm ?_ savedAgain⟩
          rw [mode]
          decide

theorem oneHash_hitHash : OneHash hitHash := fun _ _ => rfl

/-- With the schedule `fast` a trace that was seen is not fed again. -/
theorem fedOnce_fast : FedOnce hitHash (sameTraceTwice .fast) := by
  obtain ⟨s, run⟩ := sameTraceTwice_run .fast (by decide +kernel)
    (by decide +kernel) (by decide +kernel)
  refine (fedOnce_iff oneHash_hitHash run).mpr fun call member => Or.inl ?_
  have counts : (runAgain .fast).afl.countsPaths = true := by decide +kernel
  rcases List.mem_pair.mp member with same | same
  · rw [same]
    rfl
  · rw [same]
    exact counts

/-- With the schedule `explore` it is. -/
theorem fed_twice_explore :
    (∃ s, SanRun hitHash (sameTraceTwice .explore) s) ∧
      ¬ FedOnce hitHash (sameTraceTwice .explore) := by
  have set : SanSet (runAgain .explore) := ⟨by decide +kernel, by decide +kernel⟩
  have fed : Fed hitHash (runAgain .explore) wantedCall :=
    (fed_iff set).mpr (by decide +kernel)
  have same : uniqueHash hitHash (runAgain .explore) =
      uniqueHash hitHash (oneSanitizer .explore) := by
    decide +kernel
  exact ⟨sameTraceTwice_run .explore (by decide +kernel) (by decide +kernel) (by decide +kernel),
    not_fedOnce_of_same fed same⟩

end GreenFuzz.AflFuzz
