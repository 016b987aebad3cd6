import GreenFuzz.AflFuzz.Novelty
import GreenFuzz.AflFuzz.SaveIfInteresting

/-!
# Accounting for crashes

A call of `save_if_interesting` for a crash should count it once, and save it when its
simplified trace is new to `virgin_crash`. Without crash mode it does. In crash mode a crash
is the wanted kind of execution: one along covered paths is counted and rejected, unless a
sanitizer binary crashes too.

`crash_accounted` says what becomes of a crash in each of these cases. For a crash in crash mode
with new coverage the fault is overwritten with the result of the sanitizers before the switch;
nothing is said about the one that no sanitizer shares.
-/

set_option autoImplicit false

namespace GreenFuzz.AflFuzz

open Library

/-! ## Simplified traces -/

/-- One round of `simplify_trace` simplifies the bytes of its word. -/
theorem simplify_round (W : WordSize) (mem : Buffer) (i address : ℕ) :
    (if loadWord W.n mem i ≠ 0 then
        fun j => if j / W.n = i then simplifyLookup (mem j) else mem j
      else fun j => if j / W.n = i then 1 else mem j) address =
      if address / W.n = i then simplifyLookup (mem address) else mem address := by
  by_cases word : loadWord W.n mem i = 0
  · rw [if_neg (not_not.mpr word)]
    by_cases here : address / W.n = i
    · rw [if_pos here, if_pos here, apply_of_loadWord_eq_zero W.positive word here]
      rfl
    · rw [if_neg here, if_neg here]
  · rw [if_pos word]

/-- Simplification looks at one byte at a time. -/
theorem simplifyTrace_apply (W : WordSize) (mapSize : ℕ) (trace : Buffer) (address : ℕ) :
    simplifyTrace W mapSize trace address =
      if address / W.n < mapSize / W.n then simplifyLookup (trace address)
      else trace address :=
  foldl_words_apply id _ (fun _ => simplifyLookup) (simplify_round W) trace _ address

/-- Classifying a trace first does not change its simplification. -/
theorem simplifyTrace_classifyCounts (W : WordSize) (mapSize : ℕ) (trace : Buffer) :
    simplifyTrace W mapSize (classifyCounts W mapSize trace) = simplifyTrace W mapSize trace := by
  funext address
  rw [simplifyTrace_apply, simplifyTrace_apply, classifyCounts_apply]
  split
  · unfold simplifyLookup
    rw [if_congr (countClassLookup8_eq_zero_iff _) rfl rfl]
  · rfl

/-! ## What precedes the switch -/

/-- What the crash case reads: the counters and the files of the crashes, the simplified trace
and `virgin_crash`. -/
structure SameCrash (W : WordSize) (c d : SaveLocals) : Prop where
  totalCrashes : d.s.totalCrashes = c.s.totalCrashes
  savedCrashes : d.s.savedCrashes = c.s.savedCrashes
  crashFiles : d.s.crashFiles = c.s.crashFiles
  sha1 : d.s.aflSha1Filenames = c.s.aflSha1Filenames
  extension : d.s.fileExtension = c.s.fileExtension
  crashMode : d.s.afl.crashMode = c.s.afl.crashMode
  instrumented : d.s.afl.nonInstrumentedMode = c.s.afl.nonInstrumentedMode
  mapSize : d.s.afl.mapSize = c.s.afl.mapSize
  realMapSize : d.s.afl.realMapSize = c.s.afl.realMapSize
  virginCrash : d.s.afl.virginCrash = c.s.afl.virginCrash
  simplified : simplifyTrace W d.s.afl.mapSize d.s.afl.traceBits =
    simplifyTrace W c.s.afl.mapSize c.s.afl.traceBits

variable {W : WordSize} {B : Build} {input : SaveInput} {c d e : SaveLocals}

theorem SameCrash.refl (W : WordSize) (c : SaveLocals) : SameCrash W c c :=
  ⟨rfl, rfl, rfl, rfl, rfl, rfl, rfl, rfl, rfl, rfl, rfl⟩

theorem SameCrash.trans (first : SameCrash W c d) (second : SameCrash W d e) : SameCrash W c e where
  totalCrashes := second.totalCrashes.trans first.totalCrashes
  savedCrashes := second.savedCrashes.trans first.savedCrashes
  crashFiles := second.crashFiles.trans first.crashFiles
  sha1 := second.sha1.trans first.sha1
  extension := second.extension.trans first.extension
  crashMode := second.crashMode.trans first.crashMode
  instrumented := second.instrumented.trans first.instrumented
  mapSize := second.mapSize.trans first.mapSize
  realMapSize := second.realMapSize.trans first.realMapSize
  virginCrash := second.virginCrash.trans first.virginCrash
  simplified := second.simplified.trans first.simplified

/-- `has_new_bits` on `virgin_bits` changes that map and a flag. -/
theorem hasNewBits_bits (W : WordSize) (afl : AflState) :
    ∃ virgin changed, (hasNewBits W afl .bits).2 =
      { afl with virginBits := virgin, bitmapChanged := changed } := by
  unfold hasNewBits
  dsimp only
  split
  · exact ⟨_, _, rfl⟩
  · exact ⟨_, _, rfl⟩

/-- A run of a sanitizer binary keeps the trace of the target. -/
theorem sanRunTarget_eq (afl : AflState) (outcome : RunOutcome) :
    ∃ queue cpu mem stop, sanRunTarget afl outcome =
      { afl with
        queueBuf := queue, cpuEnergyMap := cpu, memEnergyMap := mem, stopSoon := stop } := by
  obtain ⟨queue, cpu, mem, ran⟩ := fuzzRunTarget_eq afl outcome
  unfold sanRunTarget
  rw [ran]
  exact ⟨queue, cpu, mem, _, rfl⟩

/-- **What the crash case reads is kept by everything that precedes it.** -/
theorem keptBySanitizers_sameCrash (B : Build) (input : SaveInput) :
    KeptBySanitizers B input (SameCrash B.variant.wordSize) where
  refl := SameCrash.refl B.variant.wordSize
  trans := SameCrash.trans
  classify c := by
    unfold classifyIfNecessary
    split
    · exact SameCrash.refl _ c
    · exact ⟨rfl, rfl, rfl, rfl, rfl, rfl, rfl, rfl, rfl, rfl, simplifyTrace_classifyCounts _ _ _⟩
  sum c cksum _ := ⟨rfl, rfl, rfl, rfl, rfl, rfl, rfl, rfl, rfl, rfl, rfl⟩
  look c := by
    obtain ⟨_, _, same⟩ := hasNewBits_bits B.variant.wordSize c.s.afl
    unfold SaveLocals.withAfl
    rw [same]
    exact ⟨rfl, rfl, rfl, rfl, rfl, rfl, rfl, rfl, rfl, rfl, rfl⟩
  note c newBits := ⟨rfl, rfl, rfl, rfl, rfl, rfl, rfl, rfl, rfl, rfl, rfl⟩
  count c cksum := ⟨rfl, rfl, rfl, rfl, rfl, rfl, rfl, rfl, rfl, rfl, rfl⟩
  mark c simplified dup := ⟨rfl, rfl, rfl, rfl, rfl, rfl, rfl, rfl, rfl, rfl, rfl⟩
  run c sanIdx := by
    obtain ⟨_, _, _, _, ran⟩ := sanRunTarget_eq c.s.afl (input.sanRuns sanIdx)
    rw [ran]
    exact ⟨rfl, rfl, rfl, rfl, rfl, rfl, rfl, rfl, rfl, rfl, rfl⟩

/-! ## The crash case -/

/-- The simplified trace is new to `virgin_crash`. -/
def CrashIsNew (B : Build) (afl : AflState) : Prop :=
  (hasNewBits B.variant.wordSize { afl with
    traceBits := simplifyTrace B.variant.wordSize afl.mapSize afl.traceBits } .crash).1 ≠ 0

instance (B : Build) (afl : AflState) : Decidable (CrashIsNew B afl) :=
  inferInstanceAs (Decidable (_ ≠ _))

/-- A file of this name is in the directory. -/
def HasFile (files : List SavedFile) (name : String) : Prop := ∃ file ∈ files, file.name = name

/-- The case was saved: `saved_crashes` grew by one, and the case was written under `crashes/` or,
when names are hashes, a file with its hash is there already. -/
structure CrashSaved (B : Build) (s : SaveState) (mem : List Byte) (t : SaveState) : Prop where
  savedCrashes : t.savedCrashes = s.savedCrashes + 1
  written : (∃ name, t.crashFiles = s.crashFiles ++ [⟨name, mem⟩]) ∨
    (s.aflSha1Filenames = true ∧ t.crashFiles = s.crashFiles ∧
      HasFile s.crashFiles (B.sha1Hex mem ++ s.suffix))

theorem newToMap_crash (B : Build) (afl : AflState) :
    (newToMap B afl .crash).1 = true ↔ afl.nonInstrumentedMode = true ∨ CrashIsNew B afl := by
  unfold newToMap CrashIsNew
  split
  · rename_i plain
    exact iff_of_true rfl (Or.inl plain)
  · rename_i instrumented
    simp [instrumented]

theorem SameCrash.isNew (same : SameCrash B.variant.wordSize c d) :
    CrashIsNew B d.s.afl ↔ CrashIsNew B c.s.afl := by
  unfold CrashIsNew hasNewBits AflState.virgin
  dsimp only
  rw [same.simplified, same.realMapSize, same.virginCrash]

theorem any_name_iff (files : List SavedFile) (name : String) :
    (files.any fun file => file.name = name) = true ↔ HasFile files name := by
  simp [HasFile]

/-- A file is created unless its hash is there. -/
theorem createFile_ok {s : SaveState} {files written : List SavedFile} {name : String}
    {mem : List Byte} (created : createFile s files name mem = .ok written) :
    ¬ HasFile files name ∧ written = files ++ [⟨name, mem⟩] ∨
      HasFile files name ∧ s.aflSha1Filenames = true ∧ written = files := by
  unfold createFile at created
  split at created
  · rename_i there
    split at created
    · rename_i hashed
      cases created
      exact Or.inr ⟨(any_name_iff files name).mp there, hashed, rfl⟩
    · cases created
  · rename_i free
    cases created
    exact Or.inl ⟨fun there => free ((any_name_iff files name).mpr there), rfl⟩

/-- A file that is there already is fatal, unless names are hashes. -/
theorem createFile_error {s : SaveState} {files : List SavedFile} {name : String}
    {mem : List Byte} {fault : SaveFault} (failed : createFile s files name mem = .error fault) :
    fault = .fatal ∧ s.aflSha1Filenames = false ∧ HasFile files name := by
  unfold createFile at failed
  split at failed
  · rename_i there
    split at failed
    · cases failed
    · rename_i numbered
      cases failed
      exact ⟨rfl, eq_false_of_ne_true numbered, (any_name_iff files name).mp there⟩
  · cases failed

/-- The crash was counted once, and saved if there was room for it and the trace in `afl` is
new. -/
structure CrashAccounted (B : Build) (s : SaveState) (afl : AflState) (mem : List Byte)
    (t : SaveState) : Prop where
  counted : t.totalCrashes = u64 (s.totalCrashes + 1)
  saved : s.savedCrashes < keepUniqueCrash → CrashIsNew B afl → CrashSaved B s mem t

/-- The crash case accounts for the crash. -/
theorem keepAsCrash_ok (done : keepAsCrash B input c = .ok d) :
    CrashAccounted B c.s c.s.afl c.mem d.s := by
  unfold keepAsCrash at done
  dsimp only at done
  split at done
  · rename_i full
    cases done
    exact ⟨rfl, fun below => absurd below (Nat.not_lt.mpr full)⟩
  · split at done
    · obtain ⟨files, created, result⟩ := bind_eq_ok_iff.mp done
      cases result
      refine ⟨rfl, fun below _ => ⟨?_, ?_⟩⟩
      · have small : c.s.savedCrashes < 25600 := below
        show u64 (c.s.savedCrashes + 1) = c.s.savedCrashes + 1
        exact Nat.mod_eq_of_lt (by omega)
      · rcases createFile_ok created with ⟨-, written⟩ | ⟨there, hashed, same⟩
        · exact Or.inl ⟨_, written⟩
        · rw [crashFn, if_pos hashed] at there
          exact Or.inr ⟨hashed, same, there⟩
    · rename_i stale
      cases done
      exact ⟨rfl, fun _ fresh => absurd ((newToMap_crash B c.s.afl).mpr (Or.inr fresh)) stale⟩

/-- The crash case returns, unless the name of the file it wants to write is taken. -/
theorem keepAsCrash_returns (B : Build) (input : SaveInput) (c : SaveLocals) :
    (∃ d, keepAsCrash B input c = .ok d) ∨
      keepAsCrash B input c = .error .fatal ∧ c.s.aflSha1Filenames = false ∧
        HasFile c.s.crashFiles (crashFn B input c) := by
  unfold keepAsCrash
  dsimp only
  split
  · exact Or.inl ⟨_, rfl⟩
  · split
    · cases created : createFile _ _ (crashFn B input _) _ with
      | ok files => exact Or.inl ⟨_, rfl⟩
      | error fault =>
          obtain ⟨fatal, numbered, there⟩ := createFile_error created
          exact Or.inr ⟨by rw [fatal]; rfl, numbered, there⟩
    · exact Or.inl ⟨_, rfl⟩

/-- A numbered file carries the number of saved crashes. -/
theorem crashFn_numbered (B : Build) (input : SaveInput) (c : SaveLocals)
    (numbered : c.s.aflSha1Filenames = false) :
    ∃ text, crashFn B input c = "id:" ++ pad6 c.s.savedCrashes ++ text := by
  refine ⟨",sig:" ++ pad2 c.s.lastKillSignal ++ "," ++ input.describeOp 0 ++ c.s.suffix, ?_⟩
  rw [crashFn, if_neg (by simp [numbered])]
  simp only [String.append_assoc]

/-! ## Adding to the queue -/

/-- The counters, the files and the naming of the crashes. -/
structure SameBooks (s t : SaveState) : Prop where
  totalCrashes : t.totalCrashes = s.totalCrashes
  savedCrashes : t.savedCrashes = s.savedCrashes
  crashFiles : t.crashFiles = s.crashFiles
  sha1 : t.aflSha1Filenames = s.aflSha1Filenames
  extension : t.fileExtension = s.fileExtension

theorem SameCrash.books (same : SameCrash W c d) : SameBooks c.s d.s :=
  ⟨same.totalCrashes, same.savedCrashes, same.crashFiles, same.sha1, same.extension⟩

/-- A crash saved over the same books is saved. -/
theorem CrashSaved.of_same {s t u : SaveState} {mem : List Byte} (same : SameBooks s t)
    (saved : CrashSaved B t mem u) : CrashSaved B s mem u := by
  have suffix : t.suffix = s.suffix := by rw [SaveState.suffix, SaveState.suffix, same.extension]
  refine ⟨by rw [saved.savedCrashes, same.savedCrashes], ?_⟩
  have written := saved.written
  rw [same.crashFiles, same.sha1, suffix] at written
  exact written

theorem CrashAccounted.of_same {s t u : SaveState} {afl : AflState} {mem : List Byte}
    (same : SameBooks s t) (accounted : CrashAccounted B t afl mem u) :
    CrashAccounted B s afl mem u where
  counted := by rw [accounted.counted, same.totalCrashes]
  saved := fun below new => (accounted.saved (by rwa [same.savedCrashes]) new).of_same same

/-- The crash case after steps that do not matter to it. -/
theorem SameCrash.accounted {t : SaveState} {mem : List Byte}
    (same : SameCrash B.variant.wordSize c d) (accounted : CrashAccounted B d.s d.s.afl mem t) :
    CrashAccounted B c.s c.s.afl mem t where
  counted := by rw [accounted.counted, same.totalCrashes]
  saved := fun below new =>
    (accounted.saved (by rwa [same.savedCrashes]) (same.isNew.mpr new)).of_same same.books

/-! ## What the parts of a call change -/

theorem classifyIfNecessary_s (B : Build) (c : SaveLocals) :
    (classifyIfNecessary B c).s = { c.s with afl := (classifyIfNecessary B c).s.afl } := by
  unfold classifyIfNecessary
  split <;> rfl

/-- The steps before the sanitizers change nothing but the fuzzer state. -/
theorem keptBySteps_s (B : Build) :
    KeptBySteps B fun c d => d.s = { c.s with afl := d.s.afl } where
  refl _ := rfl
  trans first second := by rw [second, first]
  classify := classifyIfNecessary_s B
  sum _ _ _ := rfl
  look _ := rfl
  note _ _ := rfl
  count _ _ := rfl

theorem updatePathFrequency_s (B : Build) (c : SaveLocals) :
    (updatePathFrequency B c).s = { c.s with afl := (updatePathFrequency B c).s.afl } :=
  (keptBySteps_s B).frequency c

theorem classifyIfNecessary_afl (B : Build) (c : SaveLocals) :
    ∃ trace, (classifyIfNecessary B c).s.afl = { c.s.afl with traceBits := trace } ∧
      simplifyTrace B.variant.wordSize c.s.afl.mapSize trace =
        simplifyTrace B.variant.wordSize c.s.afl.mapSize c.s.afl.traceBits := by
  unfold classifyIfNecessary
  split
  · exact ⟨_, rfl, rfl⟩
  · exact ⟨_, rfl, simplifyTrace_classifyCounts _ _ _⟩

/-- Counting a path may classify the trace, which its simplification does not show. -/
theorem updatePathFrequency_afl (B : Build) (c : SaveLocals) :
    ∃ trace paths, (updatePathFrequency B c).s.afl =
        { c.s.afl with traceBits := trace, nFuzz := paths } ∧
      simplifyTrace B.variant.wordSize c.s.afl.mapSize trace =
        simplifyTrace B.variant.wordSize c.s.afl.mapSize c.s.afl.traceBits := by
  obtain ⟨trace, classified, same⟩ := classifyIfNecessary_afl B c
  unfold updatePathFrequency
  split
  · unfold calculateCksumIfNecessary
    split
    · exact ⟨_, _, rfl, rfl⟩
    · have counted (key : ℕ) : ∃ paths, countPathOf (classifyIfNecessary B c).s.afl key =
          { c.s.afl with traceBits := trace, nFuzz := paths } := by
        rw [classified]
        exact ⟨_, rfl⟩
      obtain ⟨paths, kept⟩ := counted _
      exact ⟨trace, paths, kept, same⟩
  · exact ⟨_, _, rfl, rfl⟩

/-- The sanitizer block changes the fuzzer state and the bitmaps of the hashes. -/
theorem keptBySanitizers_s (B : Build) (input : SaveInput) :
    KeptBySanitizers B input fun c d => d.s = { c.s with
      afl := d.s.afl, simplifiedNFuzz := d.s.simplifiedNFuzz, nFuzzDup := d.s.nFuzzDup } where
  refl _ := rfl
  trans first second := by rw [second, first]
  classify c := by rw [classifyIfNecessary_s]
  sum _ _ _ := rfl
  look _ := rfl
  note _ _ := rfl
  count _ _ := rfl
  mark _ _ _ := rfl
  run _ _ := rfl

theorem feedSan_s {feed : Bool} (fed : feedSan B c = .ok (feed, d)) :
    d.s = { c.s with
      afl := d.s.afl, simplifiedNFuzz := d.s.simplifiedNFuzz, nFuzzDup := d.s.nFuzzDup } := by
  have kept := keptBySanitizers_s B { mem := [], fault := .ok }
  exact kept.feedSan kept.mark fed

theorem sanLoop_s (input : SaveInput) (c : SaveLocals) (indices : List ℕ) :
    (sanLoop input c indices).2.s = { c.s with afl := (sanLoop input c indices).2.s.afl } :=
  (keptBySteps_s trivialBuild).sanLoop (fun _ _ => rfl) c indices

theorem saveToQueue_s (queued : saveToQueue B input c = .ok d) :
    d.s = { c.s with
      afl := d.s.afl, queueFiles := d.s.queueFiles, fuzzMode := d.s.fuzzMode } := by
  obtain ⟨counted, files, found, -, rfl⟩ := saveToQueue_cases queued
  rw [(keptBySteps_s B).counted found]

/-- A crash is examined against its virgin map or not at all. -/
theorem keepAsCrash_afl (kept : keepAsCrash B input c = .ok d) :
    d.s.afl = c.s.afl ∨ d.s.afl = (newToMap B c.s.afl .crash).2 := by
  unfold keepAsCrash at kept
  dsimp only at kept
  split at kept
  · cases kept
    exact Or.inl rfl
  · split at kept
    · obtain ⟨files, created, result⟩ := bind_eq_ok_iff.mp kept
      cases result
      exact Or.inr rfl
    · cases kept
      exact Or.inr rfl

theorem keepAsCrash_s (kept : keepAsCrash B input c = .ok d) :
    d.s = { c.s with
      afl := d.s.afl, totalCrashes := d.s.totalCrashes, savedCrashes := d.s.savedCrashes
      crashFiles := d.s.crashFiles } := by
  unfold keepAsCrash at kept
  dsimp only at kept
  split at kept
  · cases kept
    rfl
  · split at kept
    · obtain ⟨files, created, result⟩ := bind_eq_ok_iff.mp kept
      cases result
      rfl
    · cases kept
      rfl

/-- The steps before the sanitizers keep the case. -/
theorem keptBySteps_mem (B : Build) : KeptBySteps B fun c d => d.mem = c.mem where
  refl _ := rfl
  trans first second := second.trans first
  classify c := by
    unfold classifyIfNecessary
    split <;> rfl
  sum _ _ _ := rfl
  look _ := rfl
  note _ _ := rfl
  count _ _ := rfl

/-- Adding a case to the queue keeps the books of the crashes and the case. -/
theorem saveToQueue_ok (queued : saveToQueue B input c = .ok d) :
    SameBooks c.s d.s ∧ d.mem = c.mem := by
  obtain ⟨counted, files, found, -, rfl⟩ := saveToQueue_cases queued
  have same := (keptBySanitizers_sameCrash B input).counted found
  have mem := (keptBySteps_mem B).counted found
  exact ⟨⟨same.totalCrashes, same.savedCrashes, same.crashFiles, same.sha1, same.extension⟩, mem⟩

/-! ## The whole call -/

/-- The first half of a call for a wanted execution: whether a sanitizer binary crashed, and the
locals with the new bits counted. -/
def judgeWanted (B : Build) (s : SaveState) (input : SaveInput) :
    Except SaveFault (Bool × SaveLocals) := do
  let (crashed, c) ← runSanitizers B input (updatePathFrequency B { s := s, mem := input.mem })
  let c ← calculateNewBitsIfNecessary B c
  .ok (crashed, c)

/-- The second half. -/
def actOnWanted (B : Build) (input : SaveInput) (crashed : Bool) (c : SaveLocals) :
    Except SaveFault SaveLocals :=
  if c.newBits = 0 then
    if crashed then saveFault B input .crash c
    else
      .ok { c with s := { c.s with
        totalCrashes :=
          if c.s.afl.crashMode ≠ .ok then u64 (c.s.totalCrashes + 1) else c.s.totalCrashes } }
  else do
    let c ← saveToQueue B input c
    saveFault B input (sanFault crashed) c

theorem saveWanted_eq (B : Build) (s : SaveState) (input : SaveInput) :
    saveWanted B input (updatePathFrequency B { s := s, mem := input.mem }) =
      judgeWanted B s input >>= fun judged => actOnWanted B input judged.1 judged.2 := by
  unfold saveWanted judgeWanted actOnWanted
  cases runSanitizers B input (updatePathFrequency B { s := s, mem := input.mem }) with
  | error fault => rfl
  | ok result =>
      show (calculateNewBitsIfNecessary B result.2 >>= _) =
        (calculateNewBitsIfNecessary B result.2 >>= _) >>= _
      cases calculateNewBitsIfNecessary B result.2 with
      | error fault => rfl
      | ok counted => rfl

theorem sameCrash_judged {s : SaveState} {crashed : Bool}
    (judged : judgeWanted B s input = .ok (crashed, c)) :
    SameCrash B.variant.wordSize { s := s, mem := input.mem } c := by
  obtain ⟨⟨hit, ran⟩, sanitized, rest⟩ := bind_eq_ok_iff.mp judged
  obtain ⟨counted, found, result⟩ := bind_eq_ok_iff.mp rest
  cases result
  have kept := keptBySanitizers_sameCrash B input
  exact ((kept.frequency _).trans (kept.sanitizers sanitized)).trans (kept.newBits found)

/-- The case after `write_to_testcase` was called for the first `n` sanitizer binaries. -/
def SaveInput.rewritten (input : SaveInput) (n : ℕ) : List Byte :=
  (List.range n).foldl (fun mem sanIdx => input.writeToTestcase sanIdx false mem) input.mem

/-- The loop over the sanitizers rewrites the case for each binary that it reaches. -/
theorem sanLoop_mem (input : SaveInput) (c : SaveLocals) (first count : ℕ)
    (before : c.mem = input.rewritten first) :
    ∃ n ≤ first + count, (sanLoop input c (List.range' first count)).2.mem = input.rewritten n := by
  induction count generalizing c first with
  | zero => exact ⟨first, le_rfl, before⟩
  | succ count ih =>
      have next : input.writeToTestcase first false c.mem = input.rewritten (first + 1) := by
        rw [before, SaveInput.rewritten, SaveInput.rewritten, List.range_succ, List.foldl_append]
        rfl
      rw [List.range'_succ]
      unfold sanLoop
      dsimp only
      split
      · exact ⟨first + 1, by omega, next⟩
      · obtain ⟨n, le, mem⟩ := ih { c.withAfl (sanRunTarget c.s.afl (input.sanRuns first)) with
          mem := input.writeToTestcase first false c.mem } (first + 1) next
        exact ⟨n, by omega, mem⟩

theorem judged_mem {s : SaveState} {crashed : Bool}
    (judged : judgeWanted B s input = .ok (crashed, c)) :
    ∃ n, c.mem = input.rewritten n := by
  obtain ⟨⟨hit, ran⟩, sanitized, rest⟩ := bind_eq_ok_iff.mp judged
  obtain ⟨counted, found, result⟩ := bind_eq_ok_iff.mp rest
  cases result
  rw [(keptBySteps_mem B).newBits found]
  obtain ⟨⟨feed, fed⟩, feeds, rest⟩ := bind_eq_ok_iff.mp sanitized
  have start : fed.mem = input.rewritten 0 :=
    ((keptBySteps_mem B).feedSan (fun _ _ _ => rfl) feeds).trans ((keptBySteps_mem B).frequency _)
  dsimp only at rest
  split at rest
  · have last : (sanLoop input fed (List.range fed.s.sanBinaryLength)).2 = ran :=
      congrArg Prod.snd (Except.ok.inj rest)
    obtain ⟨n, -, mem⟩ := sanLoop_mem input fed 0 fed.s.sanBinaryLength start
    rw [← List.range_eq_range', last] at mem
    exact ⟨n, mem⟩
  · cases rest
    exact ⟨0, start⟩

/-- A crash that is not the wanted kind of execution goes to the crash case. -/
theorem saveIfInteresting_unwanted {s : SaveState} (nonempty : input.mem ≠ [])
    (crash : input.fault = .crash) (unwanted : s.afl.crashMode ≠ .crash) :
    saveIfInteresting B s input =
      (keepAsCrash B input (updatePathFrequency B { s := s, mem := input.mem }) >>= fun c =>
        .ok (c.keeping, c.s)) := by
  unfold saveIfInteresting
  rw [if_neg nonempty, if_neg (by simp [crash]), crash, if_neg (Ne.symm unwanted)]
  rfl

/-- A crash in crash mode goes through both halves. -/
theorem saveIfInteresting_wanted {s : SaveState} (nonempty : input.mem ≠ [])
    (crash : input.fault = .crash) (wanted : s.afl.crashMode = .crash) :
    saveIfInteresting B s input =
      ((judgeWanted B s input >>= fun judged => actOnWanted B input judged.1 judged.2) >>=
        fun c => .ok (c.keeping, c.s)) := by
  unfold saveIfInteresting
  rw [if_neg nonempty, if_neg (by simp [crash]), crash, wanted, if_pos rfl, saveWanted_eq]

/-- The second half accounts for a crash that a sanitizer binary shares. Once the case is in the
queue, the trace is that of the last calibration run. -/
theorem actOnWanted_crashed (done : actOnWanted B input true c = .ok d) :
    (c.newBits = 0 → CrashAccounted B c.s c.s.afl c.mem d.s) ∧
      (c.newBits ≠ 0 → ∃ queued, saveToQueue B input c = .ok queued ∧
        CrashAccounted B c.s queued.s.afl c.mem d.s) := by
  unfold actOnWanted at done
  by_cases covered : c.newBits = 0
  · rw [if_pos covered] at done
    exact ⟨fun _ => keepAsCrash_ok done, fun novel => absurd covered novel⟩
  · rw [if_neg covered] at done
    obtain ⟨queued, added, kept⟩ := bind_eq_ok_iff.mp done
    obtain ⟨books, mem⟩ := saveToQueue_ok added
    have accounted := keepAsCrash_ok kept
    rw [mem] at accounted
    exact ⟨fun none => absurd none covered, fun _ => ⟨queued, added, accounted.of_same books⟩⟩

/-- The second half counts and rejects a crash without new coverage. -/
theorem actOnWanted_rejected (wanted : c.s.afl.crashMode = .crash) (covered : c.newBits = 0)
    (done : actOnWanted B input false c = .ok d) :
    d.s.totalCrashes = u64 (c.s.totalCrashes + 1) ∧ d.s.savedCrashes = c.s.savedCrashes ∧
      d.s.crashFiles = c.s.crashFiles := by
  unfold actOnWanted at done
  rw [if_pos covered, if_neg (by decide), wanted, if_pos (by decide)] at done
  cases done
  exact ⟨rfl, rfl, rfl⟩

/-- **What a call does with a crash.** Without crash mode the crash is counted once, and saved if
there is room and its simplified trace is new to `virgin_crash`; the call returns unless the name
of the file is taken. In crash mode the same holds when a sanitizer binary crashes too, for the
case as written to the sanitizers and the trace that is there when the crash case is reached. A
crash without new coverage, which no sanitizer shares, is counted once and rejected. -/
theorem crash_accounted (B : Build) (s : SaveState) (input : SaveInput)
    (nonempty : input.mem ≠ []) (crash : input.fault = .crash) :
    (s.afl.crashMode ≠ .crash →
      ((∃ kept t, saveIfInteresting B s input = .ok (kept, t) ∧
          CrashAccounted B s s.afl input.mem t) ∨
        saveIfInteresting B s input = .error .fatal ∧ s.aflSha1Filenames = false ∧
          ∃ text, HasFile s.crashFiles ("id:" ++ pad6 s.savedCrashes ++ text))) ∧
    (s.afl.crashMode = .crash → ∀ kept t, saveIfInteresting B s input = .ok (kept, t) →
      ∃ crashed c, judgeWanted B s input = .ok (crashed, c) ∧
        (∃ n, c.mem = input.rewritten n) ∧
        (crashed = true → c.newBits = 0 → CrashAccounted B s s.afl c.mem t) ∧
        (crashed = true → c.newBits ≠ 0 → ∃ queued, saveToQueue B input c = .ok queued ∧
          CrashAccounted B s queued.s.afl c.mem t) ∧
        (crashed = false → c.newBits = 0 → t.totalCrashes = u64 (s.totalCrashes + 1) ∧
          t.savedCrashes = s.savedCrashes ∧ t.crashFiles = s.crashFiles)) := by
  constructor
  · intro unwanted
    rw [saveIfInteresting_unwanted nonempty crash unwanted]
    have same := (keptBySanitizers_sameCrash B input).frequency { s := s, mem := input.mem }
    rcases keepAsCrash_returns B input (updatePathFrequency B { s := s, mem := input.mem }) with
      ⟨d, done⟩ | ⟨failed, numbered, there⟩
    · have accounted := keepAsCrash_ok done
      rw [(keptBySteps_mem B).frequency] at accounted
      rw [done]
      exact Or.inl ⟨_, _, rfl, same.accounted accounted⟩
    · obtain ⟨text, name⟩ := crashFn_numbered B input _ numbered
      rw [name, same.crashFiles, same.savedCrashes] at there
      rw [failed]
      exact Or.inr ⟨rfl, same.sha1.symm.trans numbered, text, there⟩
  · intro wanted kept t returned
    rw [saveIfInteresting_wanted nonempty crash wanted] at returned
    obtain ⟨d, acted, result⟩ := bind_eq_ok_iff.mp returned
    obtain ⟨⟨crashed, c⟩, judged, done⟩ := bind_eq_ok_iff.mp acted
    cases result
    have same := sameCrash_judged judged
    refine ⟨crashed, c, judged, judged_mem judged, ?_, ?_, ?_⟩
    · rintro rfl covered
      exact same.accounted ((actOnWanted_crashed done).1 covered)
    · rintro rfl novel
      obtain ⟨queued, added, accounted⟩ := (actOnWanted_crashed done).2 novel
      exact ⟨queued, added, accounted.of_same same.books⟩
    · rintro rfl covered
      obtain ⟨counted, saved, files⟩ :=
        actOnWanted_rejected (same.crashMode.trans wanted) covered done
      rw [same.totalCrashes] at counted
      exact ⟨counted, saved.trans same.savedCrashes, files.trans same.crashFiles⟩

/-- An execution that hits byte 3 once, where no crash was seen yet. -/
def oneHit (mode : FsrvRunResult) (virgin : Byte) : SaveState where
  afl := { mapSize := 64, crashMode := mode, virginBits := fun _ => virgin
           traceBits := fun a => if a = 3 then 1 else 0 }

/-- In crash mode, with a sanitizer binary. -/
def sanitized : SaveState := { oneHit .crash 0 with sanBinaryLength := 1 }

/-- A crash that the sanitizer binary shares. -/
def sharedCrash : SaveInput where
  mem := [65]
  fault := .crash
  sanRuns _ := { fault := .crash }

/-- A call can be tried out. -/
theorem exists_ok {α β : Type} {x : Except SaveFault α} {f : α → β} {b : β}
    (result : x.toOption.map f = some b) : ∃ a, x = .ok a ∧ f a = b := by
  cases x with
  | error fault => cases result
  | ok a => exact ⟨a, rfl, Option.some.inj result⟩

/-- A first crash is counted and saved, without crash mode, and in crash mode if a sanitizer binary
shares it. -/
theorem crash_accounted_first :
    (∃ kept t, saveIfInteresting trivialBuild (oneHit .ok 255) { mem := [65], fault := .crash } =
        .ok (kept, t) ∧
      t.totalCrashes = 1 ∧ CrashSaved trivialBuild (oneHit .ok 255) [65] t) ∧
    ∃ kept t, saveIfInteresting trivialBuild sanitized sharedCrash = .ok (kept, t) ∧
      t.totalCrashes = 1 ∧ CrashSaved trivialBuild sanitized [65] t := by
  constructor
  · have new : CrashIsNew trivialBuild (oneHit .ok 255).afl := by decide +kernel
    have accounted := (crash_accounted trivialBuild (oneHit .ok 255)
      { mem := [65], fault := .crash } (by decide) rfl).1 (by decide)
    rcases accounted with ⟨kept, t, done, books⟩ | ⟨-, -, text, file, there, -⟩
    · exact ⟨kept, t, done, books.counted, books.saved (by decide) new⟩
    · cases there
  · have new : CrashIsNew trivialBuild sanitized.afl := by decide +kernel
    obtain ⟨⟨kept, t⟩, done, -⟩ := exists_ok (f := fun r => r.2.totalCrashes) (b := 1)
      (show (saveIfInteresting trivialBuild sanitized sharedCrash).toOption.map _ = _ by
        decide +kernel)
    obtain ⟨⟨crashed, c⟩, judged, shared⟩ := exists_ok
      (f := fun r => (r.1, r.2.newBits, r.2.mem)) (b := (true, 0, [65]))
      (show (judgeWanted trivialBuild sanitized sharedCrash).toOption.map _ = _ by decide +kernel)
    obtain ⟨_, _, judged', -, accounted, -⟩ := (crash_accounted trivialBuild sanitized sharedCrash
      (by decide) rfl).2 rfl kept t done
    cases judged.symm.trans judged'
    simp only [Prod.mk.injEq] at shared
    have books := accounted shared.1 shared.2.1
    rw [shared.2.2] at books
    exact ⟨kept, t, done, books.counted, books.saved (by decide) new⟩

/-- In crash mode a crash along covered paths is not saved, though its simplified trace is new to
`virgin_crash` and there is room. -/
theorem crash_rejected_in_crash_mode :
    CrashIsNew trivialBuild (oneHit .crash 0).afl ∧
      (oneHit .crash 0).savedCrashes < keepUniqueCrash ∧
      ∃ kept t, saveIfInteresting trivialBuild (oneHit .crash 0)
          { mem := [65], fault := .crash } = .ok (kept, t) ∧
        t.savedCrashes = 0 ∧ t.crashFiles = [] := by
  refine ⟨by decide +kernel, by decide, ?_⟩
  obtain ⟨⟨kept, t⟩, done, books⟩ := exists_ok
    (f := fun r => (r.2.savedCrashes, r.2.crashFiles)) (b := (0, []))
    (show (saveIfInteresting trivialBuild (oneHit .crash 0)
      { mem := [65], fault := .crash }).toOption.map _ = _ by decide +kernel)
  exact ⟨kept, t, done, congrArg Prod.fst books, congrArg Prod.snd books⟩

end GreenFuzz.AflFuzz
